import CallCommunities.Proofs.Command.Asking
import CallCommunities.Proofs.Command.Stages
import CallCommunities.Proofs.Files.Writing

/-!
# Proofs/Command/Effects — what a run of detection leaves behind

The files can be in the way of every stage of a run (`Obstacle`), and a run that nothing is in the way of
succeeds (`run_cases`).  **A run that fails prints nothing and changes nothing**; one that succeeds prints
its text, or writes it to the one file asked for, where it stands as it would have been printed without
colour (`detect_effects`).
-/

namespace CallCommunities.Command

open Files (Tree Place)

variable {t : Tree} {e : Environment} {o : Options} {f : Failure} {words : List String}
  {path text : String}

/-! ## Obstacles -/

/-- What is in the way of a run, with the failure that reports it.  The settings come first, then the
input, the prior assignment and the output; each matters only where those before it are in order. -/
inductive Obstacle (t : Tree) (e : Environment) (o : Options) : Failure → Prop
  | unreadableSettings {path : String} (hpath : o.config = some path)
      (hread : t.readText e.workingDirectory path = none) :
      Obstacle t e o (.settings path (.unreadableConfig path))
  /-- The settings are malformed or out of range. -/
  | badSettings {path text : String} {cause : Error} (hpath : o.config = some path)
      (hread : t.readText e.workingDirectory path = some text)
      (hparse : SettingsFile.parse text = .error cause) : Obstacle t e o (.settings path cause)
  | unreadableInput {settings : Settings} (hsettings : settingsOn t e o = .ok settings)
      (hread : t.readText e.workingDirectory o.input = none) : Obstacle t e o (.unreadable o.input)
  | malformedInput {settings : Settings} {text : String} (hsettings : settingsOn t e o = .ok settings)
      (hread : t.readText e.workingDirectory o.input = some text)
      (hparse : readObservations? text = none) : Obstacle t e o (.malformed o.input)
  /-- The calls add up to more than the limit. -/
  | overflow {settings : Settings} {observations : List Observation}
      (hsettings : settingsOn t e o = .ok settings)
      (hinput : readOn t e readObservations? o.input = .ok observations)
      (htotal : maxTotalWeight
        < ((Builder.empty false settings.granularity).observeAll observations).graph.totalWeight) :
      Obstacle t e o (.input o.input (.weightOverflow maxTotalWeight))
  | unreadablePrior {settings : Settings} {g : CallGraph} {path : String}
      (hsettings : settingsOn t e o = .ok settings)
      (hgraph : graphOn t e settings.granularity o.input = .ok g) (hpath : o.prior = some path)
      (hread : t.readText e.workingDirectory path = none) : Obstacle t e o (.unreadable path)
  | malformedPrior {settings : Settings} {g : CallGraph} {path text : String}
      (hsettings : settingsOn t e o = .ok settings)
      (hgraph : graphOn t e settings.granularity o.input = .ok g) (hpath : o.prior = some path)
      (hread : t.readText e.workingDirectory path = some text) (hparse : readNames? text = none) :
      Obstacle t e o (.malformed path)
  /-- The prior assignment is one for another graph. -/
  | unfitPrior {settings : Settings} {g : CallGraph} {path : String} {names : SortedMap String String}
      {cause : Error} (hsettings : settingsOn t e o = .ok settings)
      (hgraph : graphOn t e settings.granularity o.input = .ok g) (hpath : o.prior = some path)
      (hprior : readOn t e readNames? path = .ok names)
      (hfit : redetect settings g names = .error cause) : Obstacle t e o (.prior path cause)
  | unwritable {path text : String} (hprepared : prepareOn t e o = .ok ⟨text, some path⟩)
      (htarget : t.target? e.workingDirectory path = none) : Obstacle t e o (.unwritable path)

/-- A failure before writing is an obstacle. -/
theorem obstacle_of_prepareOn (h : prepareOn t e o = .error f) : Obstacle t e o f := by
  rcases prepareOn_eq_error_iff.mp h with h | ⟨settings, hsettings, h | ⟨g, hgraph, h⟩⟩
  · obtain ⟨path, hpath, ⟨hread, rfl⟩ | ⟨text, cause, hread, hparse, rfl⟩⟩ :=
      settingsOn_eq_error_iff.mp h
    · exact .unreadableSettings hpath hread
    · exact .badSettings hpath hread hparse
  · rcases graphOn_eq_error_iff.mp h with h | ⟨observations, hinput, htotal, rfl⟩
    · obtain ⟨hread, rfl⟩ | ⟨text, hread, hparse, rfl⟩ := readOn_eq_error_iff.mp h
      · exact .unreadableInput hsettings hread
      · exact .malformedInput hsettings hread hparse
    · exact .overflow hsettings hinput htotal
  · obtain ⟨path, hpath, h | ⟨names, hnames, cause, hfit, rfl⟩⟩ := detectionOn_eq_error_iff.mp h
    · obtain ⟨hread, rfl⟩ | ⟨text, hread, hparse, rfl⟩ := readOn_eq_error_iff.mp h
      · exact .unreadablePrior hsettings hgraph hpath hread
      · exact .malformedPrior hsettings hgraph hpath hread hparse
    · exact .unfitPrior hsettings hgraph hpath hnames hfit

theorem run_detect (hwords : requestOf e.config words = .ok (.detect o)) :
    run t e words = match prepareOn t e o with
      | .ok out => deliver t e.workingDirectory out
      | .error f => .failed t f := by
  rewrite [run, hwords]
  rfl

theorem run_of_prepareOn_error (hwords : requestOf e.config words = .ok (.detect o))
    (h : prepareOn t e o = .error f) : run t e words = .failed t f := by
  rw [run_detect hwords, h]

/-- A run fails as the first of its stages that fails, here the settings. -/
theorem run_of_settingsOn_error (hwords : requestOf e.config words = .ok (.detect o))
    (h : settingsOn t e o = .error f) : run t e words = .failed t f :=
  run_of_prepareOn_error hwords (prepareOn_eq_error_iff.mpr (.inl h))

theorem run_of_graphOn_error {settings : Settings}
    (hwords : requestOf e.config words = .ok (.detect o)) (hsettings : settingsOn t e o = .ok settings)
    (h : graphOn t e settings.granularity o.input = .error f) : run t e words = .failed t f :=
  run_of_prepareOn_error hwords (prepareOn_eq_error_iff.mpr (.inr ⟨settings, hsettings, .inl h⟩))

theorem run_of_detectionOn_error {settings : Settings} {g : CallGraph}
    (hwords : requestOf e.config words = .ok (.detect o)) (hsettings : settingsOn t e o = .ok settings)
    (hgraph : graphOn t e settings.granularity o.input = .ok g)
    (h : detectionOn t e settings g o.prior = .error f) : run t e words = .failed t f :=
  run_of_prepareOn_error hwords
    (prepareOn_eq_error_iff.mpr (.inr ⟨settings, hsettings, .inr ⟨g, hgraph, h⟩⟩))

/-- An obstacle makes a run fail. -/
theorem Obstacle.run_eq (hwords : requestOf e.config words = .ok (.detect o)) (h : Obstacle t e o f) :
    run t e words = .failed t f := by
  cases h with
  | unreadableSettings hpath hread =>
    exact run_of_settingsOn_error hwords (settingsOn_eq_error_iff.mpr ⟨_, hpath, .inl ⟨hread, rfl⟩⟩)
  | badSettings hpath hread hparse =>
    exact run_of_settingsOn_error hwords
      (settingsOn_eq_error_iff.mpr ⟨_, hpath, .inr ⟨_, _, hread, hparse, rfl⟩⟩)
  | unreadableInput hsettings hread =>
    exact run_of_graphOn_error hwords hsettings
      (graphOn_eq_error_iff.mpr (.inl (readOn_eq_error_iff.mpr (.inl ⟨hread, rfl⟩))))
  | malformedInput hsettings hread hparse =>
    exact run_of_graphOn_error hwords hsettings
      (graphOn_eq_error_iff.mpr (.inl (readOn_eq_error_iff.mpr (.inr ⟨_, hread, hparse, rfl⟩))))
  | overflow hsettings hinput htotal =>
    exact run_of_graphOn_error hwords hsettings
      (graphOn_eq_error_iff.mpr (.inr ⟨_, hinput, htotal, rfl⟩))
  | unreadablePrior hsettings hgraph hpath hread =>
    exact run_of_detectionOn_error hwords hsettings hgraph (detectionOn_eq_error_iff.mpr
      ⟨_, hpath, .inl (readOn_eq_error_iff.mpr (.inl ⟨hread, rfl⟩))⟩)
  | malformedPrior hsettings hgraph hpath hread hparse =>
    exact run_of_detectionOn_error hwords hsettings hgraph (detectionOn_eq_error_iff.mpr
      ⟨_, hpath, .inl (readOn_eq_error_iff.mpr (.inr ⟨_, hread, hparse, rfl⟩))⟩)
  | unfitPrior hsettings hgraph hpath hprior hfit =>
    exact run_of_detectionOn_error hwords hsettings hgraph (detectionOn_eq_error_iff.mpr
      ⟨_, hpath, .inr ⟨_, hprior, _, hfit, rfl⟩⟩)
  | unwritable hprepared htarget =>
    rw [run_detect hwords, hprepared]
    simp only [deliver, Tree.writeText, htarget, Option.map_none]

/-! ## Success -/

/-- The same request for a run that prints, without colour. -/
def Options.onScreen (o : Options) : Options := { o with output := none, plain := true }

theorem askable_onScreen {c : Option String} (h : Askable c o) : Askable c o.onScreen where
  input_ne := h.input_ne
  config_ne := h.config_ne
  prior_ne := h.prior_ne
  output_ne := nofun
  verbosity_le := h.verbosity_le
  environment := h.environment

/-- A text for a file is the text that would be printed without colour. -/
theorem prepareOn_onScreen (h : prepareOn t e o = .ok ⟨text, some path⟩) :
    prepareOn t e o.onScreen = .ok ⟨text, none⟩ := by
  obtain ⟨settings, g, d, hsettings, hgraph, hd, hout⟩ := prepareOn_eq_ok_iff.mp h
  obtain ⟨rfl, hpath⟩ := Output.mk.inj hout
  refine prepareOn_eq_ok_iff.mpr ⟨settings, g, d, hsettings, hgraph, hd, ?_⟩
  have hrender : render e.terminal o.onScreen g d = render e.terminal o g d := by
    simp [render, Options.onScreen, ← hpath]
  rw [hrender]
  rfl

/-- A run that has written a text to a file: it prints nothing, the file has the text, and whatever else
stands in the tree is as before. -/
structure Wrote (t : Tree) (workingDirectory : Place) (path text : String) (r : Outcome) : Prop where
  printed_eq : r.printed = ""
  readText_eq : r.tree.readText workingDirectory path = some text
  tree_eq : ∃ place, t.target? workingDirectory path = some place
    ∧ r.tree = t.put place (.file text.toUTF8)
    ∧ (∀ q, q ≠ place → r.tree.nodeAt? q = t.nodeAt? q)
    ∧ ∀ start other, r.tree.locate start other ≠ some place →
      r.tree.readText start other = t.readText start other

/-- **A run ends in one of three ways**: with an obstacle, with a text printed or with a text written. -/
theorem run_cases (hwords : requestOf e.config words = .ok (.detect o)) :
    (∃ f, Obstacle t e o f ∧ run t e words = .failed t f)
    ∨ (o.output = none ∧ ∃ text, prepareOn t e o = .ok ⟨text, none⟩
        ∧ run t e words = ⟨0, text, none, t⟩)
    ∨ ∃ path text, o.output = some path ∧ prepareOn t e o = .ok ⟨text, some path⟩
        ∧ (run t e words).exitCode = 0
        ∧ Wrote t e.workingDirectory path text (run t e words) := by
  cases hprepared : prepareOn t e o with
  | error f => exact .inl ⟨f, obstacle_of_prepareOn hprepared, run_of_prepareOn_error hwords hprepared⟩
  | ok out =>
    obtain ⟨settings, g, d, -, -, -, rfl⟩ := prepareOn_eq_ok_iff.mp hprepared
    have hrun := run_detect (t := t) hwords
    rw [hprepared] at hrun
    cases hpath : o.output with
    | none =>
      refine .inr (.inl ⟨rfl, _, rfl, ?_⟩)
      rw [hrun, hpath]
      rfl
    | some path =>
      rw [hpath] at hprepared hrun
      cases htarget : t.target? e.workingDirectory path with
      | none =>
        exact .inl ⟨_, .unwritable hprepared htarget, (Obstacle.unwritable hprepared htarget).run_eq hwords⟩
      | some place =>
        have hwritten : run t e words
            = ⟨0, "", none, t.put place (.file (render e.terminal o g d).toUTF8)⟩ := by
          rw [hrun]
          simp only [deliver, Tree.writeText, htarget, Option.map_some]
        refine .inr (.inr ⟨path, _, rfl, rfl, by rw [hwritten], ?_⟩)
        rw [hwritten]
        exact ⟨rfl, Tree.readText_put_self htarget, place, htarget, rfl,
          fun q hq => Tree.nodeAt?_put_of_ne hq _,
          fun start other hother => Tree.readText_put_of_ne (Tree.target?_spec htarget).2.1 hother⟩

/-- A run that succeeds and has a file to write has written what was prepared. -/
theorem exists_wrote (hwords : requestOf e.config words = .ok (.detect o))
    (houtput : o.output = some path) (hcode : (run t e words).exitCode = 0) :
    ∃ text, prepareOn t e o = .ok ⟨text, some path⟩
      ∧ Wrote t e.workingDirectory path text (run t e words) := by
  rcases run_cases (t := t) hwords with ⟨f, -, h⟩ | ⟨hnone, -⟩ | ⟨path', text, hpath', hprepared, -, hwrote⟩
  · rw [h] at hcode
    exact absurd hcode Nat.one_ne_zero
  · rw [hnone] at houtput
    cases houtput
  · obtain rfl : path = path' := Option.some.inj (houtput.symm.trans hpath')
    exact ⟨text, hprepared, hwrote⟩

/-- **What a run leaves behind.**  It fails exactly when something is in its way; then nothing is printed
and the tree stays as it was.  With a file to write, a run that succeeds prints nothing and changes that
file alone, and the text there is what every run prints that asks for the same without a file and without
colour.  Without a file to write the tree stays as it was. -/
theorem detect_effects (t : Tree) (hwords : requestOf e.config words = .ok (.detect o)) :
    (∀ f, Obstacle t e o f ↔ run t e words = .failed t f)
    ∧ ((run t e words).exitCode ≠ 0 → ∃ f, Obstacle t e o f ∧ run t e words = ⟨1, "", some f, t⟩)
    ∧ (∀ path, o.output = some path → (run t e words).exitCode = 0 →
        ∃ text, Wrote t e.workingDirectory path text (run t e words)
          ∧ (∃ words', requestOf e.config words' = .ok (.detect o.onScreen))
          ∧ ∀ words', requestOf e.config words' = .ok (.detect o.onScreen) →
            run t e words' = ⟨0, text, none, t⟩)
    ∧ (o.output = none → (run t e words).tree = t) := by
  refine ⟨fun f => ⟨fun h => h.run_eq hwords, fun h => ?_⟩, fun hcode => ?_, fun path hpath hcode => ?_,
    fun hnone => ?_⟩
  · rcases run_cases (t := t) hwords with ⟨f', hobstacle, h'⟩ | ⟨-, text, -, h'⟩ | ⟨_, _, -, -, hcode, -⟩
    · rw [h', Outcome.failed, Outcome.failed, Outcome.mk.injEq, Option.some.injEq] at h
      exact h.2.2.1 ▸ hobstacle
    · rw [h', Outcome.failed, Outcome.mk.injEq] at h
      exact absurd h.1 (by decide)
    · rw [h] at hcode
      exact absurd hcode Nat.one_ne_zero
  · rcases run_cases (t := t) hwords with h | ⟨-, text, -, h⟩ | ⟨_, _, -, -, hzero, -⟩
    · exact h
    · rw [h] at hcode
      exact absurd rfl hcode
    · exact absurd hzero hcode
  · obtain ⟨text, hprepared, hwrote⟩ := exists_wrote hwords hpath hcode
    refine ⟨text, hwrote, ?_, fun words' hwords' => ?_⟩
    · exact exists_words_iff.mpr (askable_onScreen (exists_words_iff.mp ⟨words, hwords⟩))
    · rw [run_detect hwords', prepareOn_onScreen hprepared]
      rfl
  · rcases run_cases (t := t) hwords with ⟨f, -, h⟩ | ⟨-, text, -, h⟩ | ⟨path, _, hpath, -⟩
    · rw [h]
      rfl
    · rw [h]
    · rw [hnone] at hpath
      cases hpath

/-- A tree with one file, which tells of one call. -/
def oneCall : Tree := Tree.empty.put ["calls.json"] (.file "[[\"a\",\"b\",1]]".toUTF8)

/-- A run from the root, without anything in the environment. -/
def atRoot : Environment := ⟨[], ⟨none, none, none, false⟩, none⟩

/-- The result as JSON, to a file. -/
def saved : Options :=
  ⟨"calls.json", none, none, none, .json, some "communities.json", false, false, 0⟩

/-- One call gives a file that reads like what is printed, and without the call nothing happens. -/
theorem detect_effects_saved :
    requestOf atRoot.config
        ["detect", "calls.json", "--format", "json", "--output", "communities.json"] = .ok (.detect saved)
    ∧ run Tree.empty atRoot ["detect", "calls.json", "--format", "json", "--output", "communities.json"]
      = ⟨1, "", some (.unreadable "calls.json"), Tree.empty⟩
    ∧ ∃ text, Wrote oneCall [] "communities.json" text
        (run oneCall atRoot ["detect", "calls.json", "--format", "json", "--output", "communities.json"])
      ∧ run oneCall atRoot ["detect", "--plain", "-fjson", "calls.json"] = ⟨0, text, none, oneCall⟩ := by
  have hwords : requestOf atRoot.config
      ["detect", "calls.json", "--format", "json", "--output", "communities.json"]
      = .ok (.detect saved) := by decide +kernel
  have hscreen : requestOf atRoot.config ["detect", "--plain", "-fjson", "calls.json"]
      = .ok (.detect saved.onScreen) := by decide +kernel
  have hcode : (run oneCall atRoot
      ["detect", "calls.json", "--format", "json", "--output", "communities.json"]).exitCode = 0 := by
    decide +kernel
  obtain ⟨hobstacle, -⟩ := detect_effects Tree.empty hwords
  obtain ⟨-, -, hwritten, -⟩ := detect_effects oneCall hwords
  obtain ⟨text, hwrote, -, hprinted⟩ := hwritten "communities.json" rfl hcode
  refine ⟨hwords, (hobstacle (.unreadable "calls.json")).mp ?_, text, hwrote, hprinted _ hscreen⟩
  obtain ⟨settings, hsettings⟩ : ∃ settings, settingsOn Tree.empty atRoot saved = .ok settings :=
    ⟨_, settingsOn_eq Tree.empty atRoot saved⟩
  exact .unreadableInput hsettings (by decide +kernel)

end CallCommunities.Command
