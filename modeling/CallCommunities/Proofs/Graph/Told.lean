import CallCommunities.Proofs.Words.Tally

/-!
# Proofs/Graph/Told — a builder builds what it was told

A builder is used in steps: it is told of a vertex or of calls, or how to resolve identities from then
on.  A **telling** is what was said in these steps, every identity as it was resolved at the time, and
it says in plain terms what is to come of it: the names that become vertices, and which observations
count nothing, which dangle and which are kept.  Whether an observation dangles is seen in the end,
for a later step may bring up the name it lacks.

What a builder holds and what it was told stay in agreement with every mention (`Heard.take`), so they
agree after any steps (`heard_run`), and **the built graph is the one of the telling** (`built_as_told`).
-/

namespace CallCommunities

open CallGraph

/-! ## Tellings -/

/-- The observation with its identities resolved. -/
def Observation.resolve (granularity : Granularity) (o : Observation) : Observation :=
  ⟨granularity.resolve o.caller, granularity.resolve o.callee, o.count⟩

/-- What observations count together. -/
def Observation.total (observations : List Observation) : ℤ :=
  (observations.map Observation.count).sum

namespace Mention

/-- The mention with its identities resolved. -/
def resolve (granularity : Granularity) : Mention → Mention
  | declare identity => declare (granularity.resolve identity)
  | observe o => observe (o.resolve granularity)

/-- The names that a mention makes vertices: what it declares and, unless only that counts, the ends
of its calls. -/
def names (isClosed : Bool) : Mention → List String
  | declare identity => [identity]
  | observe o => if isClosed = true ∨ o.count ≤ 0 then [] else [o.caller, o.callee]

/-- The observation that a mention is, if it is one. -/
def observation? : Mention → Option Observation
  | declare _ => none
  | observe o => some o

end Mention

/-- One step in the use of a builder. -/
inductive Step where
  | tell (mention : Mention)
  /-- From here on, identities are resolved like this. -/
  | resolveAt (granularity : Granularity)

/-- What a builder was told, with resolved identities. -/
structure Telling where
  /-- Whether only declared identities are vertices. -/
  isClosed : Bool
  mentions : List Mention

namespace Telling

/-- The mentions among steps, each resolved as it was at the time. -/
def mentionsOf : Granularity → List Step → List Mention
  | _, [] => []
  | granularity, .tell mention :: rest => mention.resolve granularity :: mentionsOf granularity rest
  | _, .resolveAt granularity :: rest => mentionsOf granularity rest

/-- What is told in steps, from a granularity on. -/
def ofSteps (isClosed : Bool) (granularity : Granularity) (steps : List Step) : Telling :=
  ⟨isClosed, mentionsOf granularity steps⟩

/-- The names that become vertices, as often as they are brought up. -/
def names (t : Telling) : List String := t.mentions.flatMap (Mention.names t.isClosed)

def observations (t : Telling) : List Observation := t.mentions.filterMap Mention.observation?

/-- Whether both ends of an observation are vertices in the end. -/
def Knows (t : Telling) (o : Observation) : Prop := o.caller ∈ t.names ∧ o.callee ∈ t.names

instance (t : Telling) (o : Observation) : Decidable (t.Knows o) :=
  inferInstanceAs (Decidable (_ ∧ _))

/-- The observations that count no calls. -/
def nonPositive (t : Telling) : List Observation := t.observations.filter fun o => o.count ≤ 0

/-- The observations of calls that lack an end. -/
def dangling (t : Telling) : List Observation :=
  t.observations.filter fun o => 0 < o.count ∧ ¬ t.Knows o

/-- The observations of calls between vertices. -/
def kept (t : Telling) : List Observation := t.observations.filter fun o => 0 < o.count ∧ t.Knows o

/-- The telling with one more mention. -/
def snoc (t : Telling) (mention : Mention) : Telling := ⟨t.isClosed, t.mentions ++ [mention]⟩

variable {t : Telling} {m : Mention} {o : Observation}

theorem names_snoc : (t.snoc m).names = t.names ++ m.names t.isClosed := by
  simp [names, snoc]

theorem observations_snoc :
    (t.snoc m).observations = t.observations ++ m.observation?.toList := by
  simp only [observations, snoc, List.filterMap_append]
  cases m <;> rfl

theorem length_nonPositive_snoc : (t.snoc m).nonPositive.length
    = t.nonPositive.length + (m.observation?.toList.filter fun o => o.count ≤ 0).length := by
  rw [nonPositive, observations_snoc, List.filter_append, List.length_append]
  rfl

/-- **Every observation counts nothing, dangles or is kept**, and does only one of these. -/
theorem length_observations (t : Telling) :
    t.observations.length = t.nonPositive.length + t.dangling.length + t.kept.length := by
  rw [nonPositive, dangling, kept]
  induction t.observations with
  | nil => rfl
  | cons o rest ih =>
    simp only [List.filter_cons, List.length_cons, ih]
    by_cases hcount : o.count ≤ 0
    · simp [hcount, not_lt.mpr hcount]
      omega
    · by_cases hknown : t.Knows o <;> simp [hcount, not_le.mp hcount, hknown] <;> omega

/-- In an open telling, every end of a call is a vertex. -/
theorem knows_of_open (hopen : t.isClosed = false) (ho : o ∈ t.observations) (hcount : 0 < o.count) :
    t.Knows o := by
  obtain ⟨m, hm, hobs⟩ := List.mem_filterMap.mp ho
  cases m with
  | declare identity => cases hobs
  | observe p =>
    cases hobs
    have hnames : ∀ s ∈ [o.caller, o.callee], s ∈ t.names := fun s hs =>
      List.mem_flatMap.mpr ⟨_, hm, by rwa [Mention.names, hopen, if_neg (by simpa using hcount)]⟩
    exact ⟨hnames _ (by simp), hnames _ (by simp)⟩

theorem dangling_of_open (hopen : t.isClosed = false) : t.dangling = [] := by
  refine List.filter_eq_nil_iff.mpr fun o ho h => ?_
  obtain ⟨hcount, hunknown⟩ := of_decide_eq_true h
  exact hunknown (knows_of_open hopen ho hcount)

end Telling

/-! ## Steps -/

namespace Builder

/-- Takes one step. -/
def step (b : Builder) : Step → Builder
  | .tell mention => b.take mention
  | .resolveAt granularity => b.withGranularity granularity

/-- Takes steps in order. -/
def run (b : Builder) (steps : List Step) : Builder := steps.foldl step b

theorem kind_take (b : Builder) (m : Mention) :
    (b.take m).granularity = b.granularity ∧ (b.take m).isClosed = b.isClosed := by
  cases m with
  | declare identity => exact ⟨rfl, rfl⟩
  | observe o => exact observe_kind b o

theorem vertices_take (b : Builder) (m : Mention) : (b.take m).vertices
    = ((m.resolve b.granularity).names b.isClosed).foldl Roster.mention b.vertices := by
  cases m with
  | declare identity => rfl
  | observe o =>
    rw [take, observe, Mention.resolve, Mention.names, Observation.resolve]
    by_cases hcount : o.count ≤ 0
    · simp [hcount]
    · cases hclosed : b.isClosed <;> simp [hcount]

theorem calls_take (b : Builder) (m : Mention) : (b.take m).calls.toList = b.calls.toList
    ++ (m.resolve b.granularity).observation?.toList.filterMap (Observation.call? .perMethod) := by
  cases m with
  | declare identity => exact (List.append_nil _).symm
  | observe o =>
    have hresolved : (o.resolve b.granularity).call? .perMethod = o.call? b.granularity := rfl
    rw [take, calls_observe, Mention.resolve, Mention.observation?, Option.toList_some,
      List.filterMap_cons, hresolved]
    cases o.call? b.granularity <;> rfl

theorem nonPositive_take (b : Builder) (m : Mention) : (b.take m).nonPositive = b.nonPositive
    + ((m.resolve b.granularity).observation?.toList.filter fun o => o.count ≤ 0).length := by
  cases m with
  | declare identity => rfl
  | observe o =>
    rw [take, observe, Mention.resolve, Mention.observation?, Observation.resolve,
      Option.toList_some]
    by_cases hcount : o.count ≤ 0 <;> simp [hcount]

/-- Whether a builder holds what a telling says. -/
structure Heard (b : Builder) (t : Telling) : Prop where
  isClosed_eq : b.isClosed = t.isClosed
  vertices_eq : b.vertices = .ofList t.names
  calls_eq : b.calls.toList = t.observations.filterMap (Observation.call? .perMethod)
  nonPositive_eq : b.nonPositive = t.nonPositive.length

namespace Heard

variable {b : Builder} {t : Telling}

theorem empty (isClosed : Bool) (granularity : Granularity) :
    (Builder.empty isClosed granularity).Heard ⟨isClosed, []⟩ := ⟨rfl, rfl, rfl, rfl⟩

/-- **A builder takes in what it is told**, resolved at its granularity. -/
theorem take (h : b.Heard t) (m : Mention) :
    (b.take m).Heard (t.snoc (m.resolve b.granularity)) where
  isClosed_eq := (kind_take b m).2.trans h.isClosed_eq
  vertices_eq := by
    rw [vertices_take, h.vertices_eq, h.isClosed_eq, Telling.names_snoc, Roster.ofList, Roster.ofList,
      List.foldl_append]
  calls_eq := by
    rw [calls_take, h.calls_eq, Telling.observations_snoc, List.filterMap_append]
  nonPositive_eq := by rw [nonPositive_take, h.nonPositive_eq, Telling.length_nonPositive_snoc]

/-- **Builder and telling stay in agreement over steps.** -/
theorem run : ∀ (steps : List Step) {b : Builder} {t : Telling}, b.Heard t →
    (b.run steps).Heard ⟨t.isClosed, t.mentions ++ Telling.mentionsOf b.granularity steps⟩
  | [], b, t, h => by
    rw [Telling.mentionsOf, List.append_nil]
    exact h
  | .tell m :: steps, b, t, h => by
    have hrest := run steps (h.take m)
    rwa [(kind_take b m).1, Telling.snoc, List.append_assoc] at hrest
  | .resolveAt granularity :: steps, b, t, h =>
    run steps (b := b.withGranularity granularity)
      ⟨h.isClosed_eq, h.vertices_eq, h.calls_eq, h.nonPositive_eq⟩

variable (h : b.Heard t)
include h

/-! ## What comes of a telling -/

theorem mem_vertices {s : String} : s ∈ b.vertices.items ↔ s ∈ t.names := by
  rw [h.vertices_eq, Roster.mem_ofList]

/-- The recorded calls between certain names are what observations count there. -/
theorem sum_calls (p : String → String → Prop) [DecidableRel p] :
    ((sumOver (fun call => if p call.caller call.callee then call.weight else 0) b.calls.toList : ℕ)
      : ℤ) = Observation.total (t.observations.filter fun o => 0 < o.count ∧ p o.caller o.callee) := by
  rw [h.calls_eq, Observation.total]
  induction t.observations with
  | nil => rfl
  | cons o rest ih =>
    rw [List.filterMap_cons, List.filter_cons, Observation.call?]
    by_cases hcount : o.count ≤ 0
    · simpa [hcount, not_lt.mpr hcount] using ih
    · by_cases hp : p o.caller o.callee
      · have hnat : (o.count.toNat : ℤ) = o.count := Int.toNat_of_nonneg (by omega)
        simp [hcount, not_le.mp hcount, Granularity.resolve, hp, ih, hnat]
      · simpa [hcount, Granularity.resolve, hp] using ih

/-- **The graph has the calls that are kept.** -/
theorem totalWeight_eq : (b.graph.totalWeight : ℤ) = Observation.total t.kept := by
  rw [totalWeight_graph, sum_kept]
  simp only [h.mem_vertices]
  exact h.sum_calls fun s s' => s ∈ t.names ∧ s' ∈ t.names

/-- **Its weights are the calls kept between two names.** -/
theorem weight_eq {u v : ℕ} (hu : u < b.graph.vertexCount) (hv : v < b.graph.vertexCount) :
    (b.graph.weight u v : ℤ) = Observation.total (t.kept.filter fun o =>
      o.caller = b.graph.name u ∧ o.callee = b.graph.name v) := by
  rw [weight_graph hu hv, h.sum_calls fun s s' => s = b.graph.name u ∧ s' = b.graph.name v,
    Telling.kept, List.filter_filter]
  refine congrArg _ (List.filter_congr fun o _ => ?_)
  rw [← Bool.decide_and, decide_eq_decide]
  constructor
  · rintro ⟨hcount, hcaller, hcallee⟩
    exact ⟨⟨hcaller, hcallee⟩, hcount, hcaller ▸ h.mem_vertices.mp (name_mem hu),
      hcallee ▸ h.mem_vertices.mp (name_mem hv)⟩
  · rintro ⟨hnames, hcount, -⟩
    exact ⟨hcount, hnames⟩

/-- **What is dropped counts nothing or dangles.** -/
theorem dropped_eq : b.dropped = ⟨t.nonPositive.length, t.dangling.length⟩ := by
  rw [Builder.dropped, h.nonPositive_eq, h.calls_eq, List.countP_filterMap, Telling.dangling,
    ← List.countP_eq_length_filter]
  refine congrArg _ (List.countP_congr fun o _ => ?_)
  rw [decide_eq_true_iff, Observation.call?]
  by_cases hcount : o.count ≤ 0
  · simp [hcount, not_lt.mpr hcount]
  · rw [if_neg hcount, Option.map_some, Option.getD_some, ← Option.not_isSome, Bool.not_eq_true',
      Bool.eq_false_iff, Ne, isSome_arc?_iff, h.mem_vertices, h.mem_vertices]
    exact (and_iff_right (not_le.mp hcount)).symm

/-- Whatever is recorded has been observed. -/
theorem exists_observation {call : NamedCall} (hcall : call ∈ b.calls.toList) :
    ∃ o ∈ t.observations, 0 < o.count ∧ call.weight = o.count.toNat := by
  rw [h.calls_eq] at hcall
  obtain ⟨o, ho, hrecorded⟩ := List.mem_filterMap.mp hcall
  rw [Observation.call?] at hrecorded
  split at hrecorded
  · cases hrecorded
  · rename_i hcount
    cases hrecorded
    exact ⟨o, ho, not_le.mp hcount, rfl⟩

/-- Counts of 64 bits with a sign fit into words. -/
theorem fitsWords (hcounts : ∀ o ∈ t.observations, o.count < 2 ^ 63) : b.FitsWords := by
  intro call hcall
  obtain ⟨o, ho, hpos, hweight⟩ := h.exists_observation hcall
  have hlt := hcounts o ho
  rw [hweight, UInt64.size]
  omega

theorem pos_of_mem_kept {e : Arc} (he : e ∈ b.kept) : 0 < e.weight := by
  obtain ⟨call, hcall, harc⟩ := List.mem_filterMap.mp he
  obtain ⟨o, -, hpos, hweight⟩ := h.exists_observation hcall
  rw [(arc?_eq_some_iff.mp harc).2.2, hweight]
  omega

end Heard

theorem heard_run (isClosed : Bool) (granularity : Granularity) (steps : List Step) :
    ((empty isClosed granularity).run steps).Heard (.ofSteps isClosed granularity steps) :=
  (Heard.empty isClosed granularity).run steps

end Builder

/-- **A builder builds what it was told.**  Let an open or closed builder take any steps, and ask at any
time.  Building fails exactly when the counts of the observations kept come to more than `2 ^ 62`.  Else
the graph has the names brought up, in the order of first mention, and between any two of them what the
observations kept count there.  What was dropped by then counts nothing or dangles, which with the
observations kept makes all observations, and in an open builder nothing dangles.  And with counts of 64
bits, words do: a tally stops when building fails, and else holds the total and all weights. -/
theorem built_as_told (isClosed : Bool) (granularity : Granularity) (steps : List Step) :
    let b := (Builder.empty isClosed granularity).run steps
    let t := Telling.ofSteps isClosed granularity steps
    (b.build = .error (.weightOverflow (2 ^ 62)) ↔ 2 ^ 62 < Observation.total t.kept)
    ∧ (Observation.total t.kept ≤ 2 ^ 62 → ∃ g, b.build = .ok g
      ∧ g.vertices.items = t.names.eraseDups
      ∧ ∀ u < g.vertexCount, ∀ v < g.vertexCount, (g.weight u v : ℤ)
        = Observation.total (t.kept.filter fun o => o.caller = g.name u ∧ o.callee = g.name v))
    ∧ b.dropped = ⟨t.nonPositive.length, t.dangling.length⟩
    ∧ t.observations.length = b.dropped.nonPositive + b.dropped.dangling + t.kept.length
    ∧ (isClosed = false → b.dropped.dangling = 0)
    ∧ ((∀ o ∈ t.observations, o.count < 2 ^ 63) →
      (∀ e, b.tally = .error e ↔ b.build = .error e)
      ∧ ∀ g, b.build = .ok g → ∃ tally, b.tally = .ok tally
        ∧ tally.total.toNat = g.totalWeight
        ∧ ∀ k, (tally.weights.get? k).map UInt64.toNat = g.weights.get? k) := by
  intro b t
  have h : b.Heard t := Builder.heard_run isClosed granularity steps
  have hlimit : maxTotalWeight = 2 ^ 62 := by decide
  have htotal := h.totalWeight_eq
  have hdropped := h.dropped_eq
  refine ⟨?_, fun hle => ⟨b.graph, ?_, ?_, fun u hu v hv => h.weight_eq hu hv⟩, hdropped, ?_,
    fun hopen => ?_, fun hcounts => ?_⟩
  · rw [← hlimit, Builder.build_eq_error_iff, and_iff_left rfl]
    omega
  · rw [Builder.build_eq, if_neg (by omega)]
  · exact (congrArg Roster.items h.vertices_eq).trans (Roster.items_ofList _)
  · rw [hdropped]
    exact t.length_observations
  · rw [hdropped, Telling.dangling_of_open hopen]
    rfl
  · have hwords := h.fitsWords hcounts
    exact ⟨fun e => Builder.tally_eq_error_iff hwords, fun g hg => Builder.exists_tally_eq hwords hg⟩

/-- Steps that go from methods to classes, with an end declared after its call and one never declared. -/
def mixedSteps : List Step :=
  [.tell (.observe ⟨"Orders.place", "Billing.charge", 2 ^ 61⟩), .tell (.declare "Orders.place"),
    .tell (.observe ⟨"Orders.place", "Http.get", 2 ^ 63 - 1⟩),
    .tell (.observe ⟨"Orders.place", "Orders.place", 0⟩), .tell (.declare "Billing.charge"),
    .resolveAt .perClass, .tell (.declare "Billing.refund"),
    .tell (.observe ⟨"Billing.refund", "Billing.charge", 2 ^ 61⟩)]

/-- In a closed builder they come to `2 ^ 62` calls to the letter; in an open one, the one call that
dangled there is far too many. -/
theorem built_as_told_mixed :
    Observation.total (Telling.ofSteps true .perMethod mixedSteps).kept = 2 ^ 62
    ∧ (∀ o ∈ (Telling.ofSteps true .perMethod mixedSteps).observations, o.count < 2 ^ 63)
    ∧ (∃ g, ((Builder.empty true .perMethod).run mixedSteps).build = .ok g
      ∧ g.vertices.items = ["Orders.place", "Billing.charge", "Billing"]
      ∧ (g.weight 2 2 : ℤ) = 2 ^ 61
      ∧ ∃ tally, ((Builder.empty true .perMethod).run mixedSteps).tally = .ok tally
        ∧ tally.total.toNat = g.totalWeight)
    ∧ ((Builder.empty true .perMethod).run mixedSteps).dropped = ⟨1, 1⟩
    ∧ ((Builder.empty false .perMethod).run mixedSteps).build = .error (.weightOverflow (2 ^ 62))
    ∧ ((Builder.empty false .perMethod).run mixedSteps).dropped.dangling = 0 := by
  have htotal : Observation.total (Telling.ofSteps true .perMethod mixedSteps).kept = 2 ^ 62 := by
    decide +kernel
  have hcounts : ∀ o ∈ (Telling.ofSteps true .perMethod mixedSteps).observations,
      o.count < 2 ^ 63 := by decide +kernel
  have hnames : (Telling.ofSteps true .perMethod mixedSteps).names.eraseDups
      = ["Orders.place", "Billing.charge", "Billing"] := by decide +kernel
  obtain ⟨-, hbuilt, hdropped, -, -, hwords⟩ := built_as_told true .perMethod mixedSteps
  obtain ⟨g, hg, hitems, hweight⟩ := hbuilt htotal.le
  obtain ⟨tally, htally, hsum, -⟩ := (hwords hcounts).2 g hg
  obtain ⟨hfails, -, -, -, hopen, -⟩ := built_as_told false .perMethod mixedSteps
  have hcount : g.vertexCount = 3 := congrArg List.length (hitems.trans hnames)
  have hname : g.name 2 = "Billing" := by rw [name, hitems, hnames]; rfl
  refine ⟨htotal, hcounts, ⟨g, hg, hitems.trans hnames, ?_, tally, htally, hsum⟩,
    hdropped.trans (by decide +kernel), hfails.mpr (by decide +kernel), hopen rfl⟩
  rw [hweight 2 (by omega) 2 (by omega), hname]
  decide +kernel

end CallCommunities
