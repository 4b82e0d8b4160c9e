import CallCommunities.Command.Program

/-!
# Main — the program on the file system
-/

namespace CallCommunities.Command

/-- The text of a file, if it can be read and is text. -/
def readFile? (path : String) : IO (Option String) := do
  try
    return some (← IO.FS.readFile path)
  catch _ => return none

/-- Reports a failure. -/
def report (f : Failure) : IO UInt32 := do
  IO.eprintln s!"Error: {f.message}"
  if let some cause := f.cause? then
    IO.eprintln s!"\nCaused by:\n    {cause.message}"
  return 1

/-- Runs detection and writes or prints its result. -/
def runDetect (o : Options) : IO UInt32 := do
  let terminal : Terminal := {
    colorPreference := ← IO.getEnv "CLICOLOR"
    colorForced := ← IO.getEnv "CLICOLOR_FORCE"
    noColor := ← IO.getEnv "NO_COLOR"
    isTerminal := ← (← IO.getStdout).isTty }
  match ← (prepare readFile? (← IO.currentDir).toString terminal o).run with
  | .error f => report f
  | .ok out =>
    match out.destination with
    | none =>
      IO.print out.text
      return 0
    | some path =>
      try
        IO.FS.writeFile path out.text
        return 0
      catch _ => report (.unwritable path)

end CallCommunities.Command

open CallCommunities Command

/-- The program. -/
def main (words : List String) : IO UInt32 := do
  match requestOf (← IO.getEnv "SERVICEMAP_CONFIG") words with
  | .error stop =>
    let (code, text) := stop.outcome
    if code = 0 then IO.print text else IO.eprintln "error: see --help"
    return code.toUInt32
  | .ok .config =>
    IO.print (SettingsFile.render .default)
    return 0
  | .ok (.detect o) => runDetect o
