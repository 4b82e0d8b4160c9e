import CallCommunities.Report
import CallCommunities.Proofs.Graph.Built
import CallCommunities.Proofs.Report.Candidates

/-!
# Proofs/Report/OneClass — which communities a report passes over

A community is **inside one class** when the identities that were observed and became its members are all
of one class.  A report means to pass over these, for they would not change the structure of the code.

It judges by the classes of the members, that is of the names of the vertices.  In a graph of methods
these are the identities.  In a graph of classes they are classes already, and **the class of a class is
its package**: several classes of one package pass for one class.  The main statement
(`report_passes_over`) says that this is all that goes wrong, and `package_passes_for_class` that it does.
-/

namespace CallCommunities

open KeyOrder CallGraph

/-! ## The identities behind a community -/

/-- The identities at the ends of the calls that observations count, as they were observed. -/
def identitiesOf (l : List Observation) : List String :=
  (l.filter fun o => 0 < o.count).flatMap fun o => [o.caller, o.callee]

/-- **The vertices of an open builder stand for the identities that were observed**, and only for them. -/
theorem Builder.mem_vertices_iff_identitiesOf {l : List Observation} {granularity : Granularity}
    {s : String} : s ∈ ((Builder.empty false granularity).observeAll l).vertices.items
      ↔ ∃ i ∈ identitiesOf l, granularity.resolve i = s := by
  refine (mem_vertices_observeAll rfl).trans ((or_iff_right List.not_mem_nil).trans ?_)
  simp only [identitiesOf, List.mem_flatMap, List.mem_filterMap, List.mem_filter, decide_eq_true_eq]
  constructor
  · rintro ⟨call, ⟨o, ho, hcall⟩, hs⟩
    rw [Observation.call?] at hcall
    split at hcall
    · cases hcall
    · rename_i hcount
      cases hcall
      rcases List.mem_pair.mp hs with rfl | rfl
      · exact ⟨o.caller, ⟨o, ⟨ho, not_le.mp hcount⟩, by simp⟩, rfl⟩
      · exact ⟨o.callee, ⟨o, ⟨ho, not_le.mp hcount⟩, by simp⟩, rfl⟩
  · rintro ⟨i, ⟨o, ⟨ho, hcount⟩, hi⟩, rfl⟩
    refine ⟨_, ⟨o, ho, if_neg (not_le.mpr hcount)⟩, ?_⟩
    rcases List.mem_pair.mp hi with rfl | rfl
    · exact List.mem_pair.mpr (.inl rfl)
    · exact List.mem_pair.mpr (.inr rfl)

namespace Candidate

variable {g : CallGraph} {p : SortedMap String String} {l : List Observation} {c : Candidate}

/-- Whether the members are all of one class, as far as their names tell. -/
def OneClassed (c : Candidate) : Prop := ∀ s ∈ c.members, ∀ t ∈ c.members, classOf s = classOf t

instance (c : Candidate) : Decidable c.OneClassed :=
  inferInstanceAs (Decidable (∀ s ∈ c.members, ∀ t ∈ c.members, classOf s = classOf t))

/-- Whether the observed identities that became members are all of one class. -/
def InsideOneClass (l : List Observation) (granularity : Granularity) (c : Candidate) : Prop :=
  ∀ i ∈ identitiesOf l, ∀ j ∈ identitiesOf l,
    granularity.resolve i ∈ c.members → granularity.resolve j ∈ c.members → classOf i = classOf j

instance (l : List Observation) (granularity : Granularity) (c : Candidate) :
    Decidable (c.InsideOneClass l granularity) :=
  inferInstanceAs (Decidable (∀ i ∈ identitiesOf l, ∀ j ∈ identitiesOf l,
    granularity.resolve i ∈ c.members → granularity.resolve j ∈ c.members → classOf i = classOf j))

theorem length_le_one_iff {α : Type} [DecidableEq α] {l : List α} (h : l.Nodup) :
    l.length ≤ 1 ↔ ∀ x ∈ l, ∀ y ∈ l, x = y := by
  rw [← List.toFinset_card_of_nodup h, Finset.card_le_one]
  simp only [List.mem_toFinset]

/-- **A candidate crosses classes unless its members are all of one class.** -/
theorem Describes.crossesClasses_eq_false_iff (h : c.Describes g p) :
    c.crossesClasses = false ↔ c.OneClassed := by
  rw [crossesClasses, decide_eq_false_iff_not, not_lt,
    length_le_one_iff (h.pairwise_classes.imp ne_of_before), OneClassed]
  simp only [h.mem_classes]
  constructor
  · exact fun hall s hs t ht => hall _ ⟨s, hs, rfl⟩ _ ⟨t, ht, rfl⟩
  · rintro hall _ ⟨s, hs, rfl⟩ _ ⟨t, ht, rfl⟩
    exact hall s hs t ht

/-- In a graph of methods, the identities are the members. -/
theorem insideOneClass_perMethod_iff (h : ∀ s ∈ c.members, s ∈ identitiesOf l) :
    c.InsideOneClass l .perMethod ↔ c.OneClassed :=
  ⟨fun hinside s hs t ht => hinside s (h s hs) t (h t ht) hs ht,
    fun hall i _ j _ hi hj => hall i hi j hj⟩

/-- In a graph of classes, the members are the classes of the identities. -/
theorem insideOneClass_perClass_iff (h : ∀ s ∈ c.members, ∃ i ∈ identitiesOf l, classOf i = s) :
    c.InsideOneClass l .perClass ↔ ∀ s ∈ c.members, ∀ t ∈ c.members, s = t := by
  constructor
  · intro hinside s hs t ht
    obtain ⟨i, hi, rfl⟩ := h s hs
    obtain ⟨j, hj, rfl⟩ := h t ht
    exact hinside i hi j hj hs ht
  · exact fun hall i _ j _ hi hj => hall _ hi _ hj

end Candidate

namespace Report

open Candidate

variable {g : CallGraph} {p : SortedMap String String} {c : Candidate} {title : String}

theorem mem_interesting : c ∈ (ofAssignment title g p).interesting
    ↔ c ∈ Candidate.ofAssignment g p ∧ c.crossesClasses = true := List.mem_filter

theorem mem_ignored : c ∈ (ofAssignment title g p).ignored
    ↔ c ∈ Candidate.ofAssignment g p ∧ c.crossesClasses = false := by
  rw [ofAssignment, List.mem_filter, Bool.not_eq_true']

/-- How a report on a graph of the observations `l` judges a community. -/
structure Judges (r : Report) (l : List Observation) (granularity : Granularity) (c : Candidate) :
    Prop where
  interesting_iff : c ∈ r.interesting ↔ c ∉ r.ignored
  ignored_iff : c ∈ r.ignored ↔ c.OneClassed
  /-- A community inside one class is passed over. -/
  ignored_of_inside : c.InsideOneClass l granularity → c ∈ r.ignored
  /-- In a graph of methods, no other is. -/
  ignored_iff_of_perMethod : granularity = .perMethod →
    (c ∈ r.ignored ↔ c.InsideOneClass l granularity)
  /-- In a graph of classes, only a class by itself is inside one class, ... -/
  inside_iff_of_perClass : granularity = .perClass →
    (c.InsideOneClass l granularity ↔ c.members.length = 1)
  /-- ... but classes of one package are passed over too. -/
  wrongly_ignored_iff : c ∈ r.ignored ∧ ¬ c.InsideOneClass l granularity
    ↔ granularity = .perClass ∧ 2 ≤ c.members.length ∧ c.OneClassed

section Judged

variable {r : Report} {l : List Observation} (hnodup : c.members.Nodup)
  (hpos : 0 < c.members.length) (hinteresting : c ∈ r.interesting ↔ c ∉ r.ignored)
  (hignored : c ∈ r.ignored ↔ c.OneClassed)
include hinteresting hignored

theorem judges_perMethod (h : ∀ s ∈ c.members, s ∈ identitiesOf l) : r.Judges l .perMethod c := by
  have hinside : c ∈ r.ignored ↔ c.InsideOneClass l .perMethod :=
    hignored.trans (insideOneClass_perMethod_iff h).symm
  exact {
    interesting_iff := hinteresting
    ignored_iff := hignored
    ignored_of_inside := hinside.mpr
    ignored_iff_of_perMethod := fun _ => hinside
    inside_iff_of_perClass := fun h => by cases h
    wrongly_ignored_iff := iff_of_false (fun h => h.2 (hinside.mp h.1)) fun h => by cases h.1 }

include hnodup hpos in
theorem judges_perClass (h : ∀ s ∈ c.members, ∃ i ∈ identitiesOf l, classOf i = s) :
    r.Judges l .perClass c := by
  have hall := length_le_one_iff hnodup
  have hinside : c.InsideOneClass l .perClass ↔ c.members.length ≤ 1 :=
    (insideOneClass_perClass_iff h).trans hall.symm
  exact {
    interesting_iff := hinteresting
    ignored_iff := hignored
    ignored_of_inside := fun h => hignored.mpr fun s hs t ht => by
      rw [hall.mp (hinside.mp h) s hs t ht]
    ignored_iff_of_perMethod := fun h => by cases h
    inside_iff_of_perClass := fun _ => hinside.trans (by omega)
    wrongly_ignored_iff := by rw [hignored, hinside, not_le, and_iff_right rfl, and_comm]; rfl }

end Judged

end Report

open Candidate

/-- **What a report passes over.**  Let a graph be built from observations, of methods or of classes, and
let a map give some of its vertices communities.  Every community is either of interest or passed over,
and it is passed over when its members are of one class by their names.  This is so for all communities
inside one class.  In a graph of methods it is so for no others; in a graph of classes it is also so for
communities of several classes, exactly when these are of one package. -/
theorem report_passes_over (title : String) (l : List Observation) (granularity : Granularity)
    {g : CallGraph} (hg : ((Builder.empty false granularity).observeAll l).build = .ok g)
    (p : SortedMap String String) (hp : ∀ s ∈ p.keys, s ∈ g.vertices.items) :
    let r := Report.ofAssignment title g p
    (∀ c, c ∈ Candidate.ofAssignment g p ↔ c ∈ r.interesting ∨ c ∈ r.ignored)
    ∧ ∀ c ∈ Candidate.ofAssignment g p, r.Judges l granularity c := by
  intro r
  obtain ⟨-, rfl⟩ := Builder.build_eq_ok_iff.mp hg
  have hsplit : ∀ c, c ∈ Candidate.ofAssignment _ p ↔ c ∈ r.interesting ∨ c ∈ r.ignored := fun c => by
    rw [Report.mem_interesting, Report.mem_ignored, ← and_or_left]
    exact (and_iff_left (Bool.eq_false_or_eq_true _)).symm
  refine ⟨hsplit, fun c hc => ?_⟩
  have hdescribes := describes_of_mem hc
  have hvertex : ∀ s ∈ c.members, ∃ i ∈ identitiesOf l, granularity.resolve i = s := fun s hs => by
    refine Builder.mem_vertices_iff_identitiesOf.mp (hp s ?_)
    exact SortedMap.mem_keys_iff.mpr ⟨_, (hdescribes.mem_members s).mp hs⟩
  have hignored : c ∈ r.ignored ↔ c.OneClassed := by
    rw [Report.mem_ignored, and_iff_right hc, hdescribes.crossesClasses_eq_false_iff]
  have hinteresting : c ∈ r.interesting ↔ c ∉ r.ignored := by
    rw [Report.mem_interesting, Report.mem_ignored, and_iff_right hc, and_iff_right hc,
      Bool.not_eq_false]
  cases granularity with
  | perMethod =>
    refine Report.judges_perMethod hinteresting hignored fun s hs => ?_
    obtain ⟨i, hi, rfl⟩ := hvertex s hs
    exact hi
  | perClass =>
    exact Report.judges_perClass (hdescribes.pairwise_members.imp ne_of_before)
      (length_members_pos hc) hinteresting hignored hvertex

/-- A call from a class to another of the same package. -/
def packagedCalls : List Observation := [⟨"app.Orders.place", "app.Billing.charge", 1⟩]

/-- The graph of its methods or classes. -/
def packagedGraph (granularity : Granularity) : CallGraph :=
  ((Builder.empty false granularity).observeAll packagedCalls).graph

theorem build_packagedCalls (granularity : Granularity) :
    ((Builder.empty false granularity).observeAll packagedCalls).build
      = .ok (packagedGraph granularity) :=
  Builder.build_eq_ok_iff.mpr ⟨by cases granularity <;> decide +kernel, rfl⟩

/-- Both methods in one community. -/
def packagedMethods : SortedMap String String :=
  .ofList [("app.Billing.charge", "app.Billing.charge"), ("app.Orders.place", "app.Billing.charge")]

/-- Both classes in one community. -/
def packagedClasses : SortedMap String String :=
  .ofList [("app.Billing", "app.Billing"), ("app.Orders", "app.Billing")]

/-- The community is of interest in the graph of the methods and passed over in that of the classes. -/
theorem report_passes_over_packaged :
    (∃ c ∈ Candidate.ofAssignment (packagedGraph .perMethod) packagedMethods,
      c.members = ["app.Billing.charge", "app.Orders.place"]
      ∧ ¬ c.InsideOneClass packagedCalls .perMethod
      ∧ c ∈ (Report.ofAssignment "Detected" (packagedGraph .perMethod) packagedMethods).interesting)
    ∧ ∃ c ∈ Candidate.ofAssignment (packagedGraph .perClass) packagedClasses,
      c.members = ["app.Billing", "app.Orders"] ∧ c.OneClassed
      ∧ c ∈ (Report.ofAssignment "Detected" (packagedGraph .perClass) packagedClasses).ignored
      ∧ ¬ c.InsideOneClass packagedCalls .perClass := by
  obtain ⟨-, hmethods⟩ := report_passes_over "Detected" packagedCalls .perMethod
    (build_packagedCalls .perMethod) packagedMethods (by decide +kernel)
  obtain ⟨-, hclasses⟩ := report_passes_over "Detected" packagedCalls .perClass
    (build_packagedCalls .perClass) packagedClasses (by decide +kernel)
  have hmethod : ofCommunity (packagedGraph .perMethod) packagedMethods "app.Billing.charge"
      ∈ Candidate.ofAssignment (packagedGraph .perMethod) packagedMethods := by decide +kernel
  have hclass : ofCommunity (packagedGraph .perClass) packagedClasses "app.Billing"
      ∈ Candidate.ofAssignment (packagedGraph .perClass) packagedClasses := by decide +kernel
  have houtside : ¬ (ofCommunity (packagedGraph .perMethod) packagedMethods
      "app.Billing.charge").InsideOneClass packagedCalls .perMethod := by decide +kernel
  obtain ⟨hignored, hoverlooked⟩ := (hclasses _ hclass).wrongly_ignored_iff.mpr
    ⟨rfl, by decide +kernel, by decide +kernel⟩
  refine ⟨⟨_, hmethod, by decide +kernel, houtside, ?_⟩, _, hclass, by decide +kernel,
    by decide +kernel, hignored, hoverlooked⟩
  rw [(hmethods _ hmethod).interesting_iff, (hmethods _ hmethod).ignored_iff_of_perMethod rfl]
  exact houtside

/-- **Two classes of one package pass for one class**: the report on the graph of the classes passes over
the community of the two, though the methods that call each other are of different classes. -/
theorem package_passes_for_class :
    ∃ g, ((Builder.empty false .perClass).observeAll packagedCalls).build = .ok g
      ∧ g.vertices.items = ["app.Orders", "app.Billing"]
      ∧ (∀ s ∈ packagedClasses.keys, s ∈ g.vertices.items)
      ∧ ∃ c ∈ (Report.ofAssignment "Detected" g packagedClasses).ignored,
        c.members = ["app.Billing", "app.Orders"] ∧ ¬ c.InsideOneClass packagedCalls .perClass :=
  ⟨packagedGraph .perClass, build_packagedCalls .perClass, by decide +kernel, by decide +kernel,
    ofCommunity (packagedGraph .perClass) packagedClasses "app.Billing", by decide +kernel,
    by decide +kernel, by decide +kernel⟩

end CallCommunities
