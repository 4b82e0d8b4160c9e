import CallCommunities.Command.Arguments
import CallCommunities.Document
import CallCommunities.Double.Fixed
import CallCommunities.Listing
import CallCommunities.Reading
import CallCommunities.Report
import CallCommunities.SettingsSearch

/-!
# Command/Detect — detection from file to text

`prepare` does everything short of writing: it finds the settings, reads the observations and the prior
assignment, detects, and renders the result.  It reads through a function and writes nothing, so **a
failure has no effects**, whatever the files are.
-/

namespace CallCommunities.Command

/-- Why detection gives no result. -/
inductive Failure where
  | settings (path : String) (cause : Error)
  /-- A file that cannot be read as text. -/
  | unreadable (path : String)
  /-- A file that is not the JSON expected. -/
  | malformed (path : String)
  /-- Observations that make no graph. -/
  | input (path : String) (cause : Error)
  /-- A prior assignment for other vertices. -/
  | prior (path : String) (cause : Error)
  | unwritable (path : String)
deriving DecidableEq

namespace Failure

/-- The first line of the message for people. -/
def message : Failure → String
  | settings path _ => s!"Failed to load configuration {path}"
  | unreadable path => s!"Failed to read {path}"
  | malformed path => s!"Invalid JSON in {path}"
  | input path _ => s!"Failed to build call graph from {path}"
  | prior path _ => s!"Prior assignment {path} does not fit the input"
  | unwritable path => s!"Failed to write {path}"

/-- The error behind a failure, if the library reported one. -/
def cause? : Failure → Option Error
  | settings _ cause => some cause
  | input _ cause => some cause
  | prior _ cause => some cause
  | _ => none

end Failure

/-- A text and the file it goes to; without a file it goes to standard output. -/
structure Output where
  text : String
  destination : Option String
deriving DecidableEq

/-! ## Colour -/

/-- Text in bold. -/
def bold (colored : Bool) (text : String) : String :=
  if colored then "\x1b[1m" ++ text ++ "\x1b[0m" else text

/-- Text in bold yellow. -/
def boldYellow (colored : Bool) (text : String) : String :=
  if colored then "\x1b[1;33m" ++ text ++ "\x1b[0m" else text

/-- What decides about colour: three variables of the environment and where the output goes. -/
structure Terminal where
  colorPreference : Option String
  colorForced : Option String
  noColor : Option String
  isTerminal : Bool

/-- Whether output is coloured where nothing forbids it: any force but `0` wins, then any `noColor`
forbids, and otherwise a terminal is coloured unless the preference is `0`. -/
def Terminal.allowsColor (t : Terminal) : Bool :=
  match t.colorForced with
  | some force => if force != "0" then true else byPreference
  | none => byPreference
where
  /-- The decision when colour is not forced. -/
  byPreference : Bool := t.noColor.isNone && t.isTerminal && t.colorPreference != some "0"

/-! ## Rendering -/

/-- The line above a partition. -/
def title (d : Detection) : String :=
  s!"Communities after {d.levels} level(s), modularity " ++ Double.fixed 4 d.modularity

/-- The result for people: the listing of the graph if asked for, the report, and the warnings. -/
def renderText (colored showGraph : Bool) (g : CallGraph) (d : Detection) : String :=
  let report := Report.ofAssignment (bold colored (title d)) g d.assignment
  (if showGraph then g.renderListing ++ "\n" else "") ++ report.render
    ++ String.join (d.warnings.map fun w => line (boldYellow colored "warning:" ++ " " ++ w.message))

/-- The result as a JSON document. -/
def renderJson (g : CallGraph) (d : Detection) : String := line (Json.print .indented (d.toJson g))

/-- The result in the format asked for; a file or the option `plain` gets no colour. -/
def render (terminal : Terminal) (o : Options) (g : CallGraph) (d : Detection) : String :=
  match o.format with
  | .json => renderJson g d
  | .text =>
    renderText (terminal.allowsColor && !o.plain && o.output.isNone) o.showGraph g d

/-! ## Running -/

section Run

variable {m : Type → Type} [Monad m]

/-- The settings that apply: those of the file asked for, or those found from the working directory
upwards, with the granularity asked for. -/
def settingsFor (read : String → m (Option String)) (workingDirectory : String) (o : Options) :
    ExceptT Failure m Settings := do
  let settings ← match o.config with
    | some path => do
      match ← SettingsFile.load (m := m) read path with
      | .ok settings => pure settings
      | .error e => throw (.settings path e)
    | none => SettingsFile.discover (m := m) read workingDirectory
  return { settings with granularity := o.granularity.getD settings.granularity }

/-- What a file describes, read as JSON. -/
def readJson {α : Type} (read : String → m (Option String)) (parse? : String → Option α)
    (path : String) : ExceptT Failure m α := do
  match ← read path with
  | none => throw (.unreadable path)
  | some text =>
    match parse? text with
    | none => throw (.malformed path)
    | some x => return x

/-- The graph of the observations in a file. -/
def readGraph (read : String → m (Option String)) (granularity : Granularity) (path : String) :
    ExceptT Failure m CallGraph := do
  let observations ← readJson read readObservations? path
  match ((Builder.empty false granularity).observeAll observations).build with
  | .ok g => return g
  | .error e => throw (.input path e)

/-- The communities of a graph, continued from a prior assignment if there is one. -/
def detection (read : String → m (Option String)) (settings : Settings) (g : CallGraph)
    (prior : Option String) : ExceptT Failure m Detection := do
  match prior with
  | none => return detect settings g
  | some path => do
    let names ← readJson read readNames? path
    match redetect settings g names with
    | .ok d => return d
    | .error e => throw (.prior path e)

/-- Everything short of writing. -/
def prepare (read : String → m (Option String)) (workingDirectory : String) (terminal : Terminal)
    (o : Options) : ExceptT Failure m Output := do
  let settings ← settingsFor read workingDirectory o
  let g ← readGraph read settings.granularity o.input
  let d ← detection read settings g o.prior
  return ⟨render terminal o g d, o.output⟩

end Run

end CallCommunities.Command
