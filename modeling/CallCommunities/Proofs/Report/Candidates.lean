import CallCommunities.Candidate
import CallCommunities.Proofs.Graph.Names

/-!
# Proofs/Report/Candidates — candidates are groups with the members called from outside

Whatever map the candidates are made from, **there is one for each of its values, and it says of the keys
with that value what map and graph say** (`candidates_are_groups`): who they are, which of them are
called from keys with another value, and of which classes they are.  The values need not be keys, the
keys need not be vertices, and not every vertex needs to be a key.

Another way to the candidates takes two passes.  One goes through the map and files every key under its
value, the other goes through the calls and files every callee from outside under its value; then each
group takes its entry points out of the second table.  **Nothing is lost or misfiled on the way**
(`gathered_eq`): the groups are taken out one by one, and no two have one key.
-/

namespace CallCommunities

open KeyOrder CallGraph

namespace Candidate

variable {g : CallGraph} {p : SortedMap String String} {a : Arc} {s t c : String}

/-! ## Members -/

/-- The keys of a community, in increasing order. -/
def membersOf (p : SortedMap String String) (c : String) : List String :=
  (p.entries.filter fun e => e.2 = c).map (·.1)

theorem mem_membersOf : s ∈ membersOf p c ↔ p.get? s = some c := by
  rw [membersOf, List.mem_map, SortedMap.get?_eq_some_iff]
  constructor
  · rintro ⟨e, he, rfl⟩
    obtain ⟨hentry, hvalue⟩ := List.mem_filter.mp he
    exact of_decide_eq_true hvalue ▸ hentry
  · exact fun he => ⟨_, List.mem_filter.mpr ⟨he, decide_eq_true rfl⟩, rfl⟩

theorem pairwise_membersOf (p : SortedMap String String) (c : String) :
    (membersOf p c).Pairwise fun s t => before s t = true :=
  p.pairwise_keys.sublist (List.filter_sublist.map _)

/-- **The groups of all values are the keys**, each in one of them. -/
theorem flatMap_membersOf_perm (p : SortedMap String String) :
    ((SortedMap.sortDistinct p.values).flatMap (membersOf p)).Perm p.keys := by
  refine (List.perm_ext_iff_of_nodup (List.nodup_flatMap.mpr ⟨fun c _ => ?_, ?_⟩) p.nodup_keys).mpr
    fun s => ?_
  · exact (pairwise_membersOf p c).imp ne_of_before
  · refine (SortedMap.pairwise_sortDistinct p.values).imp fun hcd s hs ht => ?_
    rw [mem_membersOf] at hs ht
    exact ne_of_before hcd (Option.some.inj (hs.symm.trans ht))
  · simp only [List.mem_flatMap, SortedMap.mem_sortDistinct, mem_membersOf, SortedMap.mem_keys_iff,
      SortedMap.mem_values_iff]
    constructor
    · rintro ⟨c, -, hs⟩
      exact ⟨c, hs⟩
    · rintro ⟨c, hs⟩
      exact ⟨c, ⟨s, hs⟩, hs⟩

/-! ## Entry points -/

/-- The community of a callee, with its name, if the caller has another community. -/
def entered? (caller? callee? : Option String) (target : String) : Option (String × String) :=
  match caller?, callee? with
  | some caller, some callee => if caller = callee then none else some (callee, target)
  | _, _ => none

/-- The community that a call from another one enters, with the callee. -/
def crossing? (g : CallGraph) (p : SortedMap String String) (a : Arc) : Option (String × String) :=
  entered? (p.get? (g.name a.source)) (p.get? (g.name a.target)) (g.name a.target)

theorem crossing?_eq_some_iff : crossing? g p a = some (c, t) ↔ g.name a.target = t
    ∧ p.get? t = some c ∧ ∃ d, p.get? (g.name a.source) = some d ∧ d ≠ c := by
  unfold crossing? entered?
  split
  · rename_i caller callee hcaller hcallee
    rw [hcaller]
    split
    · rename_i heq
      refine iff_of_false (fun h => by cases h) ?_
      rintro ⟨rfl, ht, d, hd, hne⟩
      exact hne ((Option.some.inj hd).symm.trans (heq.trans (Option.some.inj (hcallee.symm.trans ht))))
    · rename_i hne
      rw [Option.some_inj, Prod.mk.injEq]
      constructor
      · rintro ⟨rfl, rfl⟩
        exact ⟨rfl, hcallee, caller, rfl, hne⟩
      · rintro ⟨rfl, ht, -⟩
        exact ⟨Option.some.inj (hcallee.symm.trans ht), rfl⟩
  · rename_i hnone
    refine iff_of_false (fun h => by cases h) ?_
    rintro ⟨rfl, ht, d, hd, -⟩
    exact hnone d c hd ht

theorem crossings_eq (g : CallGraph) (p : SortedMap String String) :
    crossings g p = g.arcs.filterMap (crossing? g p) := by
  refine List.filterMap_congr fun a ha => ?_
  obtain ⟨hsource, htarget, -⟩ := fits_of_get? (mem_arcs.mp ha)
  exact congrArg₂ (entered? · · (g.name a.target)) (getD_tabulated _ _ hsource)
    (getD_tabulated _ _ htarget)

/-- **A crossing is a call between two communities.** -/
theorem mem_crossings : (c, t) ∈ crossings g p
    ↔ p.get? t = some c ∧ ∃ s d, 0 < g.callsNamed s t ∧ p.get? s = some d ∧ d ≠ c := by
  simp only [crossings_eq, List.mem_filterMap, crossing?_eq_some_iff, callsNamed_pos_iff]
  constructor
  · rintro ⟨a, ha, rfl, ht, d, hd, hne⟩
    exact ⟨ht, g.name a.source, d, ⟨a, ha, rfl, rfl⟩, hd, hne⟩
  · rintro ⟨ht, s, d, ⟨a, ha, rfl, rfl⟩, hd, hne⟩
    exact ⟨a, ha, rfl, ht, d, hd, hne⟩

/-! ## One candidate -/

/-- The candidate of a community. -/
def ofCommunity (g : CallGraph) (p : SortedMap String String) (c : String) : Candidate where
  identifier := c
  members := membersOf p c
  entryPoints := SortedMap.sortDistinct (((crossings g p).filter fun e => e.1 = c).map (·.2))
  classes := SortedMap.sortDistinct ((membersOf p c).map classOf)

theorem ofAssignment_eq (g : CallGraph) (p : SortedMap String String) :
    ofAssignment g p = (SortedMap.sortDistinct p.values).map (ofCommunity g p) := rfl

/-- Whether a candidate says of the keys with its identifier what map and graph say of them, every
list in increasing order and without repeats. -/
structure Describes (g : CallGraph) (p : SortedMap String String) (c : Candidate) : Prop where
  pairwise_members : c.members.Pairwise fun s t => before s t = true
  mem_members : ∀ s, s ∈ c.members ↔ p.get? s = some c.identifier
  pairwise_entryPoints : c.entryPoints.Pairwise fun s t => before s t = true
  mem_entryPoints : ∀ t, t ∈ c.entryPoints ↔ t ∈ c.members
    ∧ ∃ s d, 0 < g.callsNamed s t ∧ p.get? s = some d ∧ d ≠ c.identifier
  pairwise_classes : c.classes.Pairwise fun s t => before s t = true
  mem_classes : ∀ k, k ∈ c.classes ↔ ∃ s ∈ c.members, classOf s = k

theorem describes_ofCommunity (g : CallGraph) (p : SortedMap String String) (c : String) :
    Describes g p (ofCommunity g p c) where
  pairwise_members := pairwise_membersOf p c
  mem_members _ := mem_membersOf
  pairwise_entryPoints := SortedMap.pairwise_sortDistinct _
  mem_entryPoints t := by
    have hfiled : t ∈ ((crossings g p).filter fun e => e.1 = c).map (·.2)
        ↔ (c, t) ∈ crossings g p := by simp
    exact SortedMap.mem_sortDistinct.trans
      (hfiled.trans (mem_crossings.trans (and_congr_left' mem_membersOf.symm)))
  pairwise_classes := SortedMap.pairwise_sortDistinct _
  mem_classes _ := SortedMap.mem_sortDistinct.trans List.mem_map

section Mem

variable {candidate : Candidate} (h : candidate ∈ ofAssignment g p)
include h

/-- **Every candidate describes its community**, ... -/
theorem describes_of_mem : candidate.Describes g p := by
  obtain ⟨c, -, rfl⟩ := List.mem_map.mp (ofAssignment_eq g p ▸ h)
  exact describes_ofCommunity g p c

/-- ... which is not empty. -/
theorem length_members_pos : 0 < candidate.members.length := by
  obtain ⟨c, hc, rfl⟩ := List.mem_map.mp (ofAssignment_eq g p ▸ h)
  obtain ⟨s, hs⟩ := SortedMap.mem_values_iff.mp (SortedMap.mem_sortDistinct.mp hc)
  exact List.length_pos_of_mem (mem_membersOf.mpr hs)

end Mem

/-! ## Two passes -/

/-- The keys filed under their values. -/
def memberTable (p : SortedMap String String) : SortedMap String (List String) :=
  .gatherBy (·.2) [] (fun members e => members ++ [e.1]) p.entries

/-- The callees from outside filed under their values. -/
def entryTable (g : CallGraph) (p : SortedMap String String) :
    SortedMap String (SortedMap String Unit) :=
  .gatherBy (·.1) .empty (fun callees e => callees.insert e.2 ()) (g.arcs.filterMap (crossing? g p))

/-- Goes through the groups and takes the entry points of each out of the table of the callees. -/
def takeOut : List (String × List String) → SortedMap String (SortedMap String Unit) → List Candidate
  | [], _ => []
  | (c, members) :: rest, table =>
    { identifier := c
      members
      entryPoints := ((table.get? c).getD .empty).keys
      classes := SortedMap.sortDistinct (members.map classOf) } :: takeOut rest (table.erase c)

/-- The candidates by way of two tables. -/
def gathered (g : CallGraph) (p : SortedMap String String) : List Candidate :=
  takeOut (memberTable p).entries (entryTable g p)

theorem getD_get?_memberTable (p : SortedMap String String) (c : String) :
    ((memberTable p).get? c).getD [] = membersOf p c := by
  rw [memberTable, SortedMap.getD_get?_gatherBy, membersOf, List.foldl_append_eq_append,
    List.nil_append, ← List.flatMap_def, ← List.map_eq_flatMap]

theorem keys_getD_get?_entryTable (g : CallGraph) (p : SortedMap String String) (c : String) :
    (((entryTable g p).get? c).getD .empty).keys = (ofCommunity g p c).entryPoints := by
  rw [entryTable, SortedMap.getD_get?_gatherBy, ← crossings_eq, ofCommunity, SortedMap.sortDistinct,
    SortedMap.ofList, List.foldl_map, List.foldl_map]

/-- The groups are those of the values. -/
theorem entries_memberTable (p : SortedMap String String) : (memberTable p).entries
    = (SortedMap.sortDistinct p.values).map fun c => (c, membersOf p c) := by
  have hkeys : (memberTable p).keys = SortedMap.sortDistinct p.values :=
    eq_of_pairwise_before (SortedMap.pairwise_keys _) (SortedMap.pairwise_sortDistinct _) fun c => by
      rw [memberTable, SortedMap.mem_keys_gatherBy, SortedMap.mem_sortDistinct]
      rfl
  rw [SortedMap.entries_eq_map_keys _ [], hkeys]
  exact List.map_congr_left fun c _ => by rw [getD_get?_memberTable]

/-- **What a group takes out is not missing from another**, as no two have one key. -/
theorem takeOut_eq : ∀ {l : List (String × List String)} {table : SortedMap String (SortedMap String Unit)},
    (l.map (·.1)).Nodup → takeOut l table = l.map fun e =>
      { identifier := e.1
        members := e.2
        entryPoints := ((table.get? e.1).getD .empty).keys
        classes := SortedMap.sortDistinct (e.2.map classOf) }
  | [], _, _ => rfl
  | (c, members) :: rest, table, h => by
    obtain ⟨hout, hrest⟩ := List.nodup_cons.mp h
    rw [takeOut, takeOut_eq hrest, List.map_cons]
    refine congrArg _ (List.map_congr_left fun e he => ?_)
    have hne : e.1 ≠ c := fun heq => hout (List.mem_map.mpr ⟨e, he, heq⟩)
    rw [SortedMap.get?_erase_of_ne _ hne]

/-- **Two passes over map and graph give the candidates.** -/
theorem gathered_eq (g : CallGraph) (p : SortedMap String String) :
    gathered g p = ofAssignment g p := by
  rw [gathered, takeOut_eq (SortedMap.nodup_keys _), entries_memberTable, List.map_map, ofAssignment_eq]
  refine List.map_congr_left fun c _ => ?_
  simp only [Function.comp_apply, keys_getD_get?_entryTable]
  rfl

end Candidate

open Candidate

/-- **Candidates are exactly the groups of a map and their members called from outside**, for every graph
and every map of names.  There is one for each value of the map, in increasing order, and it describes
the keys with that value; the members of all candidates are the keys.  Filing members and callees in two
passes and joining them by taking out gives the same candidates. -/
theorem candidates_are_groups (g : CallGraph) (p : SortedMap String String) :
    ((ofAssignment g p).map identifier).Pairwise (fun c d => before c d = true)
    ∧ (∀ c, c ∈ (ofAssignment g p).map identifier ↔ c ∈ p.values)
    ∧ (∀ c ∈ ofAssignment g p, c.Describes g p)
    ∧ ((ofAssignment g p).flatMap members).Perm p.keys
    ∧ gathered g p = ofAssignment g p := by
  have hidentifiers : (ofAssignment g p).map identifier = SortedMap.sortDistinct p.values := by
    rw [ofAssignment_eq, List.map_map]
    exact List.map_id _
  refine ⟨?_, fun c => ?_, fun c => describes_of_mem, ?_, gathered_eq g p⟩
  · rw [hidentifiers]
    exact SortedMap.pairwise_sortDistinct _
  · rw [hidentifiers, SortedMap.mem_sortDistinct]
  · rw [ofAssignment_eq, List.flatMap_map]
    exact flatMap_membersOf_perm p

/-- A vertex that calls itself, one that two others call, and one whose only call comes from the last
vertex, which has no key below. -/
def CallGraph.patchy : CallGraph :=
  .ofArcs ⟨["A.x", "A.y", "B.z", "C.w"], by decide⟩
    [⟨0, 0, 1⟩, ⟨0, 2, 2⟩, ⟨1, 2, 1⟩, ⟨2, 1, 1⟩, ⟨3, 0, 5⟩]

/-- One value is a key of the other group and one is no vertex; one key is no vertex either. -/
def patchyNames : SortedMap String String :=
  .ofList [("A.x", "X"), ("A.y", "X"), ("B.z", "A.x"), ("ghost.m", "X")]

theorem candidates_are_groups_patchy :
    (ofAssignment patchy patchyNames).map identifier = ["A.x", "X"]
    ∧ gathered patchy patchyNames = ofAssignment patchy patchyNames
    ∧ ∃ c ∈ ofAssignment patchy patchyNames, c.Describes patchy patchyNames
      ∧ c = ⟨"X", ["A.x", "A.y", "ghost.m"], ["A.y"], ["A", "ghost"]⟩ := by
  obtain ⟨-, -, hdescribes, -, hgathered⟩ := candidates_are_groups patchy patchyNames
  have hmem : ⟨"X", ["A.x", "A.y", "ghost.m"], ["A.y"], ["A", "ghost"]⟩
      ∈ ofAssignment patchy patchyNames := by decide +kernel
  exact ⟨by decide +kernel, hgathered, _, hmem, hdescribes _ hmem, rfl⟩

end CallCommunities
