import CallCommunities.Proofs.Graph.Told

/-!
# Proofs/Graph/Interleaving — in which order a builder is told

A built graph is its names, in their order, and the observations kept, in any order
(`Heard.graph_eq`).  In a closed builder the names are the declared ones and an observation is judged in
the end, so only the order of the declarations among themselves matters.  **A closed builder builds what
an open one does that hears the declarations first, and then, in any order, of the calls between what is
declared** (`closed_as_open`).
-/

namespace CallCommunities

open CallGraph

theorem Observation.total_perm {l l' : List Observation} (h : l'.Perm l) : total l' = total l :=
  (h.map Observation.count).sum_eq

/-! ## Plain mentions -/

namespace Mention

/-- The identity that a mention declares, if it does. -/
def declaration? : Mention → Option String
  | declare identity => some identity
  | observe _ => none

/-- The declared identities, in order. -/
def declarations (mentions : List Mention) : List String := mentions.filterMap declaration?

/-- The observations, in order. -/
def observations (mentions : List Mention) : List Observation := mentions.filterMap observation?

variable (granularity : Granularity) (mentions : List Mention)

theorem declarations_map_resolve : declarations (mentions.map (resolve granularity))
    = (declarations mentions).map granularity.resolve := by
  rw [declarations, declarations, List.filterMap_map, List.map_filterMap]
  exact List.filterMap_congr fun m _ => by cases m <;> rfl

theorem observations_map_resolve : observations (mentions.map (resolve granularity))
    = (observations mentions).map (Observation.resolve granularity) := by
  rw [observations, observations, List.filterMap_map, List.map_filterMap]
  exact List.filterMap_congr fun m _ => by cases m <;> rfl

/-- First declarations, then observations. -/
def declaredFirst (identities : List String) (calls : List Observation) : List Mention :=
  identities.map declare ++ calls.map observe

variable (identities : List String) (calls : List Observation)

theorem observations_declaredFirst : observations (declaredFirst identities calls) = calls := by
  rw [observations, declaredFirst, List.filterMap_append, List.filterMap_map, List.filterMap_map]
  simp [Function.comp_def, observation?]

end Mention

namespace Telling

/-- What is told by mentions at one granularity. -/
def ofMentions (isClosed : Bool) (granularity : Granularity) (mentions : List Mention) : Telling :=
  ⟨isClosed, mentions.map (Mention.resolve granularity)⟩

variable {t : Telling} {granularity : Granularity} {mentions : List Mention}

theorem observations_ofMentions (isClosed : Bool) :
    (ofMentions isClosed granularity mentions).observations
      = (Mention.observations mentions).map (Observation.resolve granularity) :=
  Mention.observations_map_resolve granularity mentions

/-- **Only declared identities are the names of a closed telling.** -/
theorem names_of_closed (hclosed : t.isClosed = true) : t.names = Mention.declarations t.mentions := by
  rw [names, Mention.declarations, hclosed, List.filterMap_eq_flatMap_toList]
  exact List.flatMap_congr fun m _ => by cases m <;> rfl

variable {t' : Telling}

theorem knows_congr (hnames : ∀ s, s ∈ t'.names ↔ s ∈ t.names) (o : Observation) :
    t'.Knows o ↔ t.Knows o := and_congr (hnames _) (hnames _)

/-- **What is kept is made of the observations that are known.** -/
theorem kept_perm (hnames : ∀ s, s ∈ t'.names ↔ s ∈ t.names)
    (hknown : (t'.observations.filter fun o => t.Knows o).Perm
      (t.observations.filter fun o => t.Knows o)) : t'.kept.Perm t.kept := by
  have hsplit : ∀ l : List Observation, l.filter (fun o => 0 < o.count ∧ t.Knows o)
      = (l.filter fun o => t.Knows o).filter fun o => 0 < o.count := fun l => by
    rw [List.filter_filter]
    exact List.filter_congr fun o _ => Bool.decide_and _ _
  have hkept : t'.kept = t'.observations.filter fun o => 0 < o.count ∧ t.Knows o :=
    List.filter_congr fun o _ => by rw [decide_eq_decide, knows_congr hnames]
  rw [hkept, kept, hsplit, hsplit]
  exact hknown.filter _

theorem dangling_perm (hnames : ∀ s, s ∈ t'.names ↔ s ∈ t.names)
    (hperm : t'.observations.Perm t.observations) : t'.dangling.Perm t.dangling := by
  have hdangling : t'.dangling = t'.observations.filter fun o => 0 < o.count ∧ ¬ t.Knows o :=
    List.filter_congr fun o _ => by rw [decide_eq_decide, knows_congr hnames]
  rw [hdangling]
  exact hperm.filter _

end Telling

namespace Builder

theorem heard_takeAll (isClosed : Bool) (granularity : Granularity) (mentions : List Mention) :
    ((empty isClosed granularity).takeAll mentions).Heard
      (.ofMentions isClosed granularity mentions) := by
  have hsteps : ∀ l : List Mention, Telling.mentionsOf granularity (l.map .tell)
      = l.map (Mention.resolve granularity) := fun l => by
    induction l with
    | nil => rfl
    | cons m rest ih => exact congrArg _ ih
  have hrun := heard_run isClosed granularity (mentions.map .tell)
  rwa [Telling.ofSteps, hsteps, run, List.foldl_map] at hrun

namespace Heard

variable {b b' : Builder} {t t' : Telling} (h : b.Heard t) (h' : b'.Heard t')
include h h'

/-- **A graph is its names, in their order, and the observations kept, in any order.** -/
theorem graph_eq (hvertices : b'.vertices = b.vertices) (hkept : t'.kept.Perm t.kept) :
    b'.graph = b.graph := by
  have hcount : b'.graph.vertexCount = b.graph.vertexCount := congrArg Roster.size hvertices
  have hname := name_graph_congr hvertices
  refine ext_weight hvertices (weight_ext hcount fun u hu v hv => ?_)
  have hweight := h'.weight_eq (hcount.symm ▸ hu) (hcount.symm ▸ hv)
  rw [hname, hname, Observation.total_perm (hkept.filter _), ← h.weight_eq hu hv] at hweight
  exact_mod_cast hweight

end Heard

end Builder

/-! ## Closed builders -/

/-- The observations of which both ends are declared at some time, in order. -/
def Mention.declaredCalls (granularity : Granularity) (mentions : List Mention) :
    List Observation :=
  (observations mentions).filter fun o =>
    granularity.resolve o.caller ∈ (declarations mentions).map granularity.resolve
      ∧ granularity.resolve o.callee ∈ (declarations mentions).map granularity.resolve

section Closed

variable {granularity : Granularity} {mentions : List Mention} {calls : List Observation}

/-- The names of a closed builder. -/
theorem names_ofMentions_closed : (Telling.ofMentions true granularity mentions).names
    = (Mention.declarations mentions).map granularity.resolve :=
  (Telling.names_of_closed rfl).trans (Mention.declarations_map_resolve granularity mentions)

variable (hcalls : calls.Perm (Mention.declaredCalls granularity mentions))
include hcalls

/-- Told first of what is declared, an open builder meets no other name in calls between such. -/
theorem ofList_names_declaredFirst : Roster.ofList (Telling.ofMentions false granularity
      (Mention.declaredFirst (Mention.declarations mentions) calls)).names
    = .ofList (Telling.ofMentions true granularity mentions).names := by
  have hnames : (Telling.ofMentions false granularity (Mention.declaredFirst
      (Mention.declarations mentions) calls)).names
      = (Mention.declarations mentions).map granularity.resolve
        ++ calls.flatMap fun o => (Mention.observe (o.resolve granularity)).names false := by
    rw [Telling.names, Telling.ofMentions, Mention.declaredFirst, List.map_append,
      List.flatMap_append, List.map_map, List.map_map, List.flatMap_map, List.flatMap_map]
    exact congrArg (· ++ _) (List.map_eq_flatMap (f := granularity.resolve)).symm
  rw [hnames, names_ofMentions_closed]
  refine Roster.ofList_append_of_subset fun s hs => ?_
  obtain ⟨o, ho, hs⟩ := List.mem_flatMap.mp hs
  have hdeclared := of_decide_eq_true (List.mem_filter.mp (hcalls.subset ho)).2
  rw [Mention.names] at hs
  split at hs
  · cases hs
  · rcases List.mem_cons.mp hs with rfl | hs
    · exact hdeclared.1
    · exact List.mem_singleton.mp hs ▸ hdeclared.2

/-- What it hears of then is what the closed one knows both ends of. -/
theorem observations_declaredFirst_perm : (Telling.ofMentions false granularity
      (Mention.declaredFirst (Mention.declarations mentions) calls)).observations.Perm
    ((Telling.ofMentions true granularity mentions).observations.filter fun o =>
      (Telling.ofMentions true granularity mentions).Knows o) := by
  rw [Telling.observations_ofMentions, Mention.observations_declaredFirst,
    Telling.observations_ofMentions, List.filter_map]
  refine (hcalls.map _).trans (List.Perm.of_eq (congrArg _ (List.filter_congr fun o _ => ?_)))
  rw [Function.comp_apply, decide_eq_decide, Telling.Knows, names_ofMentions_closed]
  rfl

theorem build_declaredFirst : ((Builder.empty false granularity).takeAll
      (Mention.declaredFirst (Mention.declarations mentions) calls)).build
    = ((Builder.empty true granularity).takeAll mentions).build := by
  have h := Builder.heard_takeAll true granularity mentions
  have h' := Builder.heard_takeAll false granularity
    (Mention.declaredFirst (Mention.declarations mentions) calls)
  have hroster := ofList_names_declaredFirst hcalls
  refine Builder.build_congr (h.graph_eq h' ?_ (Telling.kept_perm (fun s => ?_) ?_))
  · rw [h'.vertices_eq, h.vertices_eq, hroster]
  · rw [← Roster.mem_ofList, hroster, Roster.mem_ofList]
  · refine ((observations_declaredFirst_perm hcalls).filter _).trans (List.Perm.of_eq ?_)
    rw [List.filter_filter]
    simp only [Bool.and_self]

end Closed

/-- In a closed builder, only the order of the declarations among themselves matters. -/
theorem build_closed_perm {granularity : Granularity} {mentions mentions' : List Mention}
    (hdeclarations : Mention.declarations mentions' = Mention.declarations mentions)
    (hobservations : (Mention.observations mentions').Perm (Mention.observations mentions)) :
    ((Builder.empty true granularity).takeAll mentions').build
      = ((Builder.empty true granularity).takeAll mentions).build
    ∧ ((Builder.empty true granularity).takeAll mentions').dropped
      = ((Builder.empty true granularity).takeAll mentions).dropped := by
  have h := Builder.heard_takeAll true granularity mentions
  have h' := Builder.heard_takeAll true granularity mentions'
  have hnames : (Telling.ofMentions true granularity mentions').names
      = (Telling.ofMentions true granularity mentions).names := by
    rw [names_ofMentions_closed, names_ofMentions_closed, hdeclarations]
  have hsame : ∀ s, s ∈ (Telling.ofMentions true granularity mentions').names
      ↔ s ∈ (Telling.ofMentions true granularity mentions).names := fun s => by rw [hnames]
  have hperm : (Telling.ofMentions true granularity mentions').observations.Perm
      (Telling.ofMentions true granularity mentions).observations := by
    rw [Telling.observations_ofMentions, Telling.observations_ofMentions]
    exact hobservations.map _
  have hnonPositive : (Telling.ofMentions true granularity mentions').nonPositive.Perm
      (Telling.ofMentions true granularity mentions).nonPositive := hperm.filter _
  constructor
  · refine Builder.build_congr (h.graph_eq h' ?_ (Telling.kept_perm hsame (hperm.filter _)))
    rw [h'.vertices_eq, h.vertices_eq, hnames]
  · rw [h'.dropped_eq, h.dropped_eq, hnonPositive.length_eq,
      (Telling.dangling_perm hsame hperm).length_eq]

/-- **A closed builder is an open builder on the declared calls, in any order.**  Tell a closed builder of
declarations and observations in any order.  It builds what an open builder does, graph or error, that is
told first of the declarations, in their order, and then, in any order, of those observations whose two
ends are declared at some time.  So the order of the observations does not matter, nor whether a
declaration comes before or after the calls that need it: not for what is built, and not for what is
dropped in the end. -/
theorem closed_as_open (granularity : Granularity) (mentions : List Mention) :
    (∀ calls : List Observation, calls.Perm (Mention.declaredCalls granularity mentions) →
      ((Builder.empty false granularity).takeAll
          (Mention.declaredFirst (Mention.declarations mentions) calls)).build
        = ((Builder.empty true granularity).takeAll mentions).build)
    ∧ ∀ mentions' : List Mention,
      Mention.declarations mentions' = Mention.declarations mentions →
      (Mention.observations mentions').Perm (Mention.observations mentions) →
      ((Builder.empty true granularity).takeAll mentions').build
        = ((Builder.empty true granularity).takeAll mentions).build
      ∧ ((Builder.empty true granularity).takeAll mentions').dropped
        = ((Builder.empty true granularity).takeAll mentions).dropped :=
  ⟨fun _ hcalls => build_declaredFirst hcalls, fun _ => build_closed_perm⟩

/-- Calls between classes, told before a method of each is declared, and one to a class that never is. -/
def lateDeclarations : List Mention :=
  [.observe ⟨"Orders.place", "Billing.charge", 2⟩, .declare "Billing.refund",
    .observe ⟨"Orders.place", "Http.get", 5⟩, .declare "Orders.cancel",
    .observe ⟨"Orders.cancel", "Orders.place", 1⟩]

theorem closed_as_open_late :
    [⟨"Orders.cancel", "Orders.place", 1⟩, ⟨"Orders.place", "Billing.charge", 2⟩].Perm
      (Mention.declaredCalls .perClass lateDeclarations)
    ∧ ((Builder.empty false .perClass).takeAll (Mention.declaredFirst
        (Mention.declarations lateDeclarations)
        [⟨"Orders.cancel", "Orders.place", 1⟩, ⟨"Orders.place", "Billing.charge", 2⟩])).build
      = ((Builder.empty true .perClass).takeAll lateDeclarations).build
    ∧ ((Builder.empty true .perClass).takeAll (Mention.declaredFirst
        (Mention.declarations lateDeclarations)
        (Mention.observations lateDeclarations).reverse)).dropped = ⟨0, 1⟩ := by
  have hcalls : [⟨"Orders.cancel", "Orders.place", 1⟩, ⟨"Orders.place", "Billing.charge", 2⟩].Perm
      (Mention.declaredCalls .perClass lateDeclarations) := by decide +kernel
  obtain ⟨hopen, hclosed⟩ := closed_as_open .perClass lateDeclarations
  obtain ⟨-, hdropped⟩ := hclosed (Mention.declaredFirst (Mention.declarations lateDeclarations)
    (Mention.observations lateDeclarations).reverse) (by decide +kernel) (by decide +kernel)
  exact ⟨hcalls, hopen _ hcalls, hdropped.trans (by decide +kernel)⟩

end CallCommunities
