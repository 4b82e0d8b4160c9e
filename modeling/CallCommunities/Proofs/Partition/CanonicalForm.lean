import CallCommunities.Proofs.Hierarchy.ConnectedParts

/-!
# Proofs/Partition/CanonicalForm — one form for every partition

Canonical labels name every group by its lowest-named member, so **two assignments have one canonical
form exactly when they make the same groups** (`canonicalize_eq_iff`).  The connected parts are labelled
in the same way; hence splitting a partition gives its canonical form exactly when nothing is split
(`refine_eq_canonicalize_iff`).

The lowest-named members can be found in one pass over the vertices, with a table of the lowest seen so
far of every community.  It finds the canonical form, whatever the communities are called
(`tabled_eq_canonicalize`).
-/

namespace CallCommunities

open Assignment CallGraph SortedMap

variable {view : LinkView} {g : CallGraph} {a b : Assignment} {u v c : ℕ}

namespace Assignment

/-! ## Lowest members in one pass -/

/-- The lower-named of the vertex found so far and another one. -/
def lower (view : LinkView) (found : Option ℕ) (v : ℕ) : ℕ := found.elim v fun r => view.lowest r v

/-- Enters a vertex into a table of the lowest-named members of the communities. -/
def enterMember (view : LinkView) (a : Assignment) (table : SortedMap ℕ ℕ) (v : ℕ) : SortedMap ℕ ℕ :=
  table.upsert (a.labelOf v) fun found => lower view found v

/-- The lowest-named member of every community, by identifier. -/
def lowestMembers (view : LinkView) (a : Assignment) : SortedMap ℕ ℕ :=
  (List.range a.size).foldl (enterMember view a) .empty

/-- The canonical form, found in one pass over the vertices. -/
def tabled (view : LinkView) (a : Assignment) : Assignment :=
  ⟨a.labels.map fun c => ((a.lowestMembers view).get? c).getD c⟩

theorem foldl_lower (view : LinkView) : ∀ (l : List ℕ) (r : ℕ),
    l.foldl (fun found v => some (lower view found v)) (some r) = some (l.foldl view.lowest r)
  | [], _ => rfl
  | v :: l, r => foldl_lower view l (view.lowest r v)

/-- Vertices change the entry of their own community only. -/
theorem get?_foldl_enterMember (view : LinkView) (a : Assignment) (c : ℕ) :
    ∀ (l : List ℕ) (table : SortedMap ℕ ℕ), (l.foldl (enterMember view a) table).get? c
      = (l.filter fun v => a.labelOf v = c).foldl (fun found v => some (lower view found v))
        (table.get? c)
  | [], _ => rfl
  | v :: l, table => by
    rw [List.foldl_cons, get?_foldl_enterMember view a c l, enterMember]
    by_cases hc : a.labelOf v = c
    · subst hc
      rw [get?_upsert_self, List.filter_cons_of_pos (by simp), List.foldl_cons]
    · rw [get?_upsert_of_ne _ _ (Ne.symm hc), List.filter_cons_of_neg (by simpa using hc)]

/-- The table holds the lowest member of each community. -/
theorem getD_get?_lowestMembers (view : LinkView) (a : Assignment) (c : ℕ) :
    ((a.lowestMembers view).get? c).getD c = a.representative view c := by
  rw [lowestMembers, get?_foldl_enterMember, get?_empty, ← members, representative]
  cases a.members c with
  | nil => rfl
  | cons v rest => exact congrArg (Option.getD · c) (foldl_lower view rest v)

/-- **One pass finds the canonical form.** -/
theorem tabled_eq_canonicalize (view : LinkView) (a : Assignment) :
    a.tabled view = a.canonicalize view := by
  rw [tabled, canonicalize]
  simp only [getD_get?_lowestMembers]

/-! ## The same form -/

/-- **Two assignments have one canonical form exactly when they make the same groups.** -/
theorem canonicalize_eq_iff (ha : a.size = g.vertexCount) (hb : b.size = g.vertexCount) :
    a.canonicalize g.linkView = b.canonicalize g.linkView ↔ SameGroups a b := by
  have hgroups := sameGroups_canonicalize hb
  constructor
  · intro heq
    exact (sameGroups_canonicalize ha).trans (heq ▸ hgroups.symm)
  · exact fun hsame => canonicalize_eq_of_sameGroups (canonical_canonicalize hb) (hsame.trans hgroups)

end Assignment

/-- Communities that are connected have the groups of their parts. -/
theorem JoinedGroups.sameGroups_refine (h : JoinedGroups g a) (ha : a.Valid g.vertexCount) :
    SameGroups a (a.refine g.linkView) := by
  refine ⟨ha.1.trans (valid_refine g a).1.symm, fun u v hu hv => ?_⟩
  have hu : u < g.vertexCount := ha.1 ▸ hu
  have hv : v < g.vertexCount := ha.1 ▸ hv
  rw [labelOf_refine_eq_iff hu hv]
  exact ⟨h u hu v hv, Joined.labelOf_eq⟩

/-- **The parts are the canonical form exactly when every community is connected.** -/
theorem refine_eq_canonicalize_iff (ha : a.Valid g.vertexCount) :
    a.refine g.linkView = a.canonicalize g.linkView ↔ ConnectedGroups g a := by
  rw [connectedGroups_iff ha]
  constructor
  · intro heq
    exact (joinedGroups_refine g a).of_sameGroups (valid_refine g a).1
      (heq ▸ (sameGroups_canonicalize ha.1).symm)
  · intro hjoin
    exact (canonicalize_eq_of_sameGroups (canonical_refine g a) (hjoin.sameGroups_refine ha)).symm

/-- **Relabelling gives a canonical form.**  It groups the vertices as before and labels every group by a
member, the first of them by name; one pass with a table finds it.  Two assignments get the same form
exactly when they make the same groups, and the form of an assignment is what its connected parts amount
to exactly when each of its communities is connected. -/
theorem canonical_form (g : CallGraph) {a : Assignment} (ha : a.Valid g.vertexCount) :
    SameGroups a (a.canonicalize g.linkView)
    ∧ (∀ v < g.vertexCount, ∃ r < g.vertexCount, (a.canonicalize g.linkView).labelOf v = r
      ∧ a.labelOf r = a.labelOf v
      ∧ ∀ u < g.vertexCount, a.labelOf u = a.labelOf v → g.name r ≤ g.name u)
    ∧ a.tabled g.linkView = a.canonicalize g.linkView
    ∧ (∀ b : Assignment, b.Valid g.vertexCount →
      (a.canonicalize g.linkView = b.canonicalize g.linkView ↔ SameGroups a b))
    ∧ (a.refine g.linkView = a.canonicalize g.linkView ↔ ConnectedGroups g a) := by
  have hcanonical := canonical_canonicalize ha.1
  have hgroups := sameGroups_canonicalize ha.1
  refine ⟨hgroups, fun v hv => ?_, tabled_eq_canonicalize _ a,
    fun b hb => canonicalize_eq_iff ha.1 hb.1, refine_eq_canonicalize_iff ha⟩
  have hsame : ∀ u < g.vertexCount, (a.labelOf u = a.labelOf v
      ↔ (a.canonicalize g.linkView).labelOf u = (a.canonicalize g.linkView).labelOf v) := fun u hu =>
    hgroups.2 u v (ha.1.symm ▸ hu) (ha.1.symm ▸ hv)
  have hlt := hcanonical.valid.labelOf_lt hv
  refine ⟨_, hlt, rfl, (hsame _ hlt).mpr (hcanonical.labelOf_labelOf v hv), fun u hu huv => ?_⟩
  rw [← (hsame u hu).mp huv]
  exact hcanonical.name_labelOf_le hu

/-- The tail of the tadpole is in the community of two vertices that it is not linked to.  Under other
labels, which are swapped and name no member, the form is the same; the parts are another one. -/
theorem canonical_form_tadpole :
    Assignment.Valid tadpole.vertexCount ⟨#[3, 3, 0, 3]⟩
    ∧ Assignment.Valid tadpole.vertexCount ⟨#[2, 2, 1, 2]⟩
    ∧ (⟨#[3, 3, 0, 3]⟩ : Assignment).canonicalize tadpole.linkView = ⟨#[1, 1, 2, 1]⟩
    ∧ (⟨#[2, 2, 1, 2]⟩ : Assignment).canonicalize tadpole.linkView = ⟨#[1, 1, 2, 1]⟩
    ∧ (∀ u < tadpole.vertexCount, (⟨#[3, 3, 0, 3]⟩ : Assignment).labelOf u = 3 →
      tadpole.name 1 ≤ tadpole.name u)
    ∧ (⟨#[3, 3, 0, 3]⟩ : Assignment).tabled tadpole.linkView = ⟨#[1, 1, 2, 1]⟩
    ∧ (⟨#[3, 3, 0, 3]⟩ : Assignment).refine tadpole.linkView = ⟨#[1, 1, 2, 3]⟩
    ∧ ¬ ConnectedGroups tadpole ⟨#[3, 3, 0, 3]⟩ := by
  have hvalid : Assignment.Valid tadpole.vertexCount ⟨#[3, 3, 0, 3]⟩ := ⟨rfl, by decide +kernel⟩
  have hvalid' : Assignment.Valid tadpole.vertexCount ⟨#[2, 2, 1, 2]⟩ := ⟨rfl, by decide +kernel⟩
  have hform : (⟨#[3, 3, 0, 3]⟩ : Assignment).canonicalize tadpole.linkView = ⟨#[1, 1, 2, 1]⟩ := by
    decide +kernel
  have hparts : (⟨#[3, 3, 0, 3]⟩ : Assignment).refine tadpole.linkView = ⟨#[1, 1, 2, 3]⟩ := by
    decide +kernel
  have hgroups : ∀ u < 4, ∀ v < 4,
      ((⟨#[3, 3, 0, 3]⟩ : Assignment).labelOf u = (⟨#[3, 3, 0, 3]⟩ : Assignment).labelOf v
        ↔ (⟨#[2, 2, 1, 2]⟩ : Assignment).labelOf u = (⟨#[2, 2, 1, 2]⟩ : Assignment).labelOf v) := by
    decide +kernel
  obtain ⟨-, hlowest, htabled, hforms, hconnected⟩ := canonical_form tadpole hvalid
  rw [hform] at hlowest htabled hforms hconnected
  refine ⟨hvalid, hvalid', hform, ?_, ?_, htabled, hparts, ?_⟩
  · exact ((hforms _ hvalid').mpr ⟨rfl, fun u v hu hv => hgroups u hu v hv⟩).symm
  · obtain ⟨r, -, hr, -, hle⟩ := hlowest 3 (by decide)
    obtain rfl : 1 = r := hr
    exact hle
  · exact hconnected.not.mp (by rw [hparts]; decide)

end CallCommunities
