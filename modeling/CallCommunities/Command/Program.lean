import CallCommunities.Command.Detect
import CallCommunities.Files.Tree

/-!
# Command/Program — the whole program on a tree of files

A run takes a command line, an environment and a tree, and gives an exit code, what is printed and the
tree afterwards.  Only the file asked for with `--output` is ever written, and only when detection has
succeeded.
-/

namespace CallCommunities.Command

open Files (Tree Place)

/-- The text that `--version` prints. -/
def versionText : String := "servicemap 0.1.0\n"

/-- The text that `--help` prints. -/
def helpText : String :=
  "Service boundary recovery from call graphs\n\nUsage: servicemap <COMMAND>\n\nCommands:\n"
    ++ "  detect  Detect communities in a call graph\n"
    ++ "  config  Print the default configuration as TOML\n"
    ++ "  help    Print help\n"

/-- The exit code of a command line that asks for nothing that can be done, and what is printed. -/
def Stop.outcome : Stop → Nat × String
  | .help => (0, helpText)
  | .version => (0, versionText)
  | _ => (2, "")

/-- Where a program runs. -/
structure Environment where
  workingDirectory : Place
  terminal : Terminal
  /-- The settings file that the environment names. -/
  config : Option String

/-- How a run ends. -/
structure Outcome where
  exitCode : Nat
  printed : String
  failure : Option Failure
  tree : Tree

/-- The end of a run that failed. -/
def Outcome.failed (t : Tree) (f : Failure) : Outcome := ⟨1, "", some f, t⟩

/-- Writes or prints an output. -/
def deliver (t : Tree) (workingDirectory : Place) (out : Output) : Outcome :=
  match out.destination with
  | none => ⟨0, out.text, none, t⟩
  | some path =>
    match t.writeText workingDirectory path out.text with
    | some written => ⟨0, "", none, written⟩
    | none => .failed t (.unwritable path)

/-- The output of detection on a tree, read only. -/
def prepareOn (t : Tree) (e : Environment) (o : Options) : Except Failure Output :=
  (prepare (m := Id) (fun path => t.readText e.workingDirectory path)
    (Tree.pathOf e.workingDirectory) e.terminal o).run

/-- A run of the program. -/
def run (t : Tree) (e : Environment) (words : List String) : Outcome :=
  match requestOf e.config words with
  | .error stop => ⟨stop.outcome.1, stop.outcome.2, none, t⟩
  | .ok .config => ⟨0, SettingsFile.render .default, none, t⟩
  | .ok (.detect o) =>
    match prepareOn t e o with
    | .ok out => deliver t e.workingDirectory out
    | .error f => .failed t f

end CallCommunities.Command
