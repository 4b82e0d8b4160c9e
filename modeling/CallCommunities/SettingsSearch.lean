import CallCommunities.Files.Path
import CallCommunities.SettingsFile

/-!
# SettingsSearch — finding the settings that apply

Settings come from a file that is named, or from the nearest directory upwards that has a usable file of
the usual name.  Files are read through a function, so the same search serves a tree of files and the
file system itself.
-/

namespace CallCommunities.SettingsFile

variable {m : Type → Type} [Monad m]

/-- How many directories a search looks into, the first one included. -/
def searchDepth : Nat := 10

/-- The settings of a named file; every failure is an error. -/
def load (read : String → m (Option String)) (path : String) : m (Except Error Settings) := do
  match ← read path with
  | none => return .error (.unreadableConfig path)
  | some text => return parse text

/-- The settings of the first directory with a file that can be read and gives valid settings; the
defaults if there is none. -/
def firstUsable (read : String → m (Option String)) : List String → m Settings
  | [] => return .default
  | directory :: rest => do
    match ← load read (Files.join directory fileName) with
    | .ok settings => return settings
    | .error _ => firstUsable read rest

/-- The settings that apply in a directory. -/
def discover (read : String → m (Option String)) (start : String) : m Settings :=
  firstUsable read (Files.ancestors searchDepth start)

end CallCommunities.SettingsFile
