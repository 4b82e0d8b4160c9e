import CallCommunities.Command.Program
import CallCommunities.Proofs.Files.Discovery
import CallCommunities.Proofs.Graph.Built
import CallCommunities.Proofs.Partition.Named

/-!
# Proofs/Command/Stages — the stages of a run of detection

A run goes through stages that read the files: settings, observations, prior assignment.  Read off a tree
they are plain functions that give a result or a failure, and **a run is prepared by one after the other**
(`prepareOn_eq`).  For each stage the ways in which it can fail are listed.
-/

namespace CallCommunities

namespace Command

open Files (Tree Place)

variable {t : Tree} {e : Environment} {o : Options} {f : Failure}

/-! ## Stages as functions -/

/-- Stages that read a tree fail as they do anywhere. -/
theorem run_bind {ε α β : Type} (x : ExceptT ε Id α) (f : α → ExceptT ε Id β) :
    ((x >>= f).run : Except ε β) = bind (m := Except ε) x.run fun a => (f a).run := by
  cases x <;> rfl

/-- The settings of a run. -/
def settingsOn (t : Tree) (e : Environment) (o : Options) : Except Failure Settings :=
  (settingsFor (m := Id) (fun path => t.readText e.workingDirectory path)
    (Tree.pathOf e.workingDirectory) o).run

/-- What a file describes. -/
def readOn {α : Type} (t : Tree) (e : Environment) (parse? : String → Option α) (path : String) :
    Except Failure α :=
  (readJson (m := Id) (fun path => t.readText e.workingDirectory path) parse? path).run

/-- The graph of the observations in a file. -/
def graphOn (t : Tree) (e : Environment) (granularity : Granularity) (path : String) :
    Except Failure CallGraph :=
  (readGraph (m := Id) (fun path => t.readText e.workingDirectory path) granularity path).run

/-- The communities of a graph, continued from a prior assignment if there is one. -/
def detectionOn (t : Tree) (e : Environment) (settings : Settings) (g : CallGraph)
    (prior : Option String) : Except Failure Detection :=
  (detection (m := Id) (fun path => t.readText e.workingDirectory path) settings g prior).run

/-- **The stages of a run, one after the other.** -/
theorem prepareOn_eq (t : Tree) (e : Environment) (o : Options) :
    prepareOn t e o = (settingsOn t e o >>= fun settings =>
      graphOn t e settings.granularity o.input >>= fun g =>
      detectionOn t e settings g o.prior >>= fun d => .ok ⟨render e.terminal o g d, o.output⟩) := by
  rw [prepareOn, prepare, run_bind]
  refine congrArg (settingsOn t e o >>= ·) (funext fun settings => ?_)
  rw [run_bind]
  refine congrArg (graphOn t e settings.granularity o.input >>= ·) (funext fun g => ?_)
  rw [run_bind]
  rfl

/-- The settings with the granularity asked for. -/
def Options.adjust (o : Options) (settings : Settings) : Settings :=
  { settings with granularity := o.granularity.getD settings.granularity }

theorem settingsOn_eq (t : Tree) (e : Environment) (o : Options) :
    settingsOn t e o = match o.config with
      | none => .ok (o.adjust (SettingsFile.discover (m := Id)
          (fun path => t.readText e.workingDirectory path) (Tree.pathOf e.workingDirectory)))
      | some path => match t.readText e.workingDirectory path with
        | none => .error (.settings path (.unreadableConfig path))
        | some text => match SettingsFile.parse text with
          | .error cause => .error (.settings path cause)
          | .ok settings => .ok (o.adjust settings) := by
  rw [settingsOn, settingsFor]
  cases o.config with
  | none => rfl
  | some path =>
    simp only
    generalize hload : SettingsFile.load (m := Id) (fun path => t.readText e.workingDirectory path) path
      = loaded
    obtain rfl := (SettingsFile.load_eq _ path).symm.trans hload
    cases t.readText e.workingDirectory path with
    | none => rfl
    | some text =>
      simp only
      cases SettingsFile.parse text <;> rfl

theorem readOn_eq {α : Type} (t : Tree) (e : Environment) (parse? : String → Option α)
    (path : String) : readOn t e parse? path = match t.readText e.workingDirectory path with
      | none => .error (.unreadable path)
      | some text => match parse? text with
        | none => .error (.malformed path)
        | some x => .ok x := by
  rw [readOn, readJson]
  cases t.readText e.workingDirectory path <;> rfl

theorem graphOn_eq (t : Tree) (e : Environment) (granularity : Granularity) (path : String) :
    graphOn t e granularity path = (readOn t e readObservations? path >>= fun observations =>
      match ((Builder.empty false granularity).observeAll observations).build with
      | .ok g => .ok g
      | .error cause => .error (.input path cause)) := by
  rw [graphOn, readGraph, run_bind]
  rfl

theorem detectionOn_eq (t : Tree) (e : Environment) (settings : Settings) (g : CallGraph)
    (prior : Option String) :
    detectionOn t e settings g prior = match prior with
      | none => .ok (detect settings g)
      | some path => readOn t e readNames? path >>= fun names =>
        match redetect settings g names with
        | .ok d => .ok d
        | .error cause => .error (.prior path cause) := by
  cases prior with
  | none => rfl
  | some path =>
    rw [detectionOn]
    simp only [detection]
    rw [run_bind]
    rfl

/-! ## Settings are valid -/

/-- **A run uses valid settings only**, so that to validate them again cannot fail. -/
theorem validate_of_settingsOn {settings : Settings} (h : settingsOn t e o = .ok settings) :
    settings.validate = .ok () := by
  rw [settingsOn_eq] at h
  split at h
  · obtain rfl := Except.ok.inj h
    exact Settings.validate_eq_ok_iff.mpr (SettingsFile.valid_discover _ _)
  · split at h
    · cases h
    · split at h
      · cases h
      · rename_i hparse
        obtain rfl := Except.ok.inj h
        exact Settings.validate_eq_ok_iff.mpr (SettingsFile.parse_eq_ok_iff.mp hparse).2

/-! ## How a stage fails -/

theorem settingsOn_eq_error_iff : settingsOn t e o = .error f ↔ ∃ path, o.config = some path
    ∧ ((t.readText e.workingDirectory path = none ∧ f = .settings path (.unreadableConfig path))
      ∨ ∃ text cause, t.readText e.workingDirectory path = some text
        ∧ SettingsFile.parse text = .error cause ∧ f = .settings path cause) := by
  rw [settingsOn_eq]
  cases o.config with
  | none => simp
  | some path =>
    simp only [Option.some.injEq, exists_eq_left']
    cases t.readText e.workingDirectory path with
    | none => simp [eq_comm]
    | some text =>
      simp only [Option.some.injEq, exists_and_left, exists_eq_left']
      cases SettingsFile.parse text <;> simp [eq_comm]

theorem readOn_eq_error_iff {α : Type} {parse? : String → Option α} {path : String} :
    readOn t e parse? path = .error f
      ↔ (t.readText e.workingDirectory path = none ∧ f = .unreadable path)
        ∨ ∃ text, t.readText e.workingDirectory path = some text ∧ parse? text = none
          ∧ f = .malformed path := by
  rw [readOn_eq]
  cases t.readText e.workingDirectory path with
  | none => simp [eq_comm]
  | some text =>
    simp only [Option.some.injEq, exists_eq_left']
    cases parse? text <;> simp [eq_comm]

theorem graphOn_eq_error_iff {granularity : Granularity} {path : String} :
    graphOn t e granularity path = .error f
      ↔ readOn t e readObservations? path = .error f
        ∨ ∃ observations, readOn t e readObservations? path = .ok observations
          ∧ maxTotalWeight
            < ((Builder.empty false granularity).observeAll observations).graph.totalWeight
          ∧ f = .input path (.weightOverflow maxTotalWeight) := by
  rw [graphOn_eq, bind_eq_error_iff]
  refine or_congr_right (exists_congr fun observations => and_congr_right fun _ => ?_)
  cases hbuild : ((Builder.empty false granularity).observeAll observations).build with
  | ok g =>
    refine iff_of_false (fun h => by cases h) fun h => ?_
    rw [Builder.build_eq_error_iff.mpr ⟨h.1, rfl⟩] at hbuild
    cases hbuild
  | error cause =>
    obtain ⟨hlt, rfl⟩ := Builder.build_eq_error_iff.mp hbuild
    rw [Except.error.injEq]
    exact ⟨fun h => ⟨hlt, h.symm⟩, fun h => h.2.symm⟩

theorem detectionOn_eq_error_iff {settings : Settings} {g : CallGraph} {prior : Option String} :
    detectionOn t e settings g prior = .error f ↔ ∃ path, prior = some path
      ∧ (readOn t e readNames? path = .error f
        ∨ ∃ names, readOn t e readNames? path = .ok names
          ∧ ∃ cause, redetect settings g names = .error cause ∧ f = .prior path cause) := by
  rw [detectionOn_eq]
  cases prior with
  | none => simp
  | some path =>
    simp only [Option.some.injEq, exists_eq_left']
    rw [bind_eq_error_iff]
    refine or_congr_right (exists_congr fun names => and_congr_right fun _ => ?_)
    cases redetect settings g names <;> simp [eq_comm]

theorem prepareOn_eq_error_iff : prepareOn t e o = .error f
    ↔ settingsOn t e o = .error f ∨ ∃ settings, settingsOn t e o = .ok settings
      ∧ (graphOn t e settings.granularity o.input = .error f
        ∨ ∃ g, graphOn t e settings.granularity o.input = .ok g
          ∧ detectionOn t e settings g o.prior = .error f) := by
  rw [prepareOn_eq, bind_eq_error_iff]
  refine or_congr_right (exists_congr fun settings => and_congr_right fun _ => ?_)
  rw [bind_eq_error_iff]
  refine or_congr_right (exists_congr fun g => and_congr_right fun _ => ?_)
  rw [bind_eq_error_iff]
  refine or_iff_left ?_
  rintro ⟨d, -, h⟩
  cases h

theorem prepareOn_eq_ok_iff {out : Output} : prepareOn t e o = .ok out
    ↔ ∃ settings g d, settingsOn t e o = .ok settings
      ∧ graphOn t e settings.granularity o.input = .ok g
      ∧ detectionOn t e settings g o.prior = .ok d
      ∧ out = ⟨render e.terminal o g d, o.output⟩ := by
  rw [prepareOn_eq, bind_eq_ok_iff]
  constructor
  · rintro ⟨settings, hsettings, h⟩
    obtain ⟨g, hg, h⟩ := bind_eq_ok_iff.mp h
    obtain ⟨d, hd, h⟩ := bind_eq_ok_iff.mp h
    exact ⟨settings, g, d, hsettings, hg, hd, (Except.ok.inj h).symm⟩
  · rintro ⟨settings, g, d, hsettings, hg, hd, rfl⟩
    exact ⟨settings, hsettings, bind_eq_ok_iff.mpr ⟨g, hg, bind_eq_ok_iff.mpr ⟨d, hd, rfl⟩⟩⟩

end Command

end CallCommunities
