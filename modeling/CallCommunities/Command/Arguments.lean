import CallCommunities.Identity

/-!
# Command/Arguments — what a command line asks for

The words of a command line are read from left to right.  An option takes its value from the same word
(`--format=json`, `-fjson`, `-f=json`) or from the next one, unless that begins with a dash; flags of one
letter may share a word, and after `--` every word is an input.

**A value in a word of its own is looked at late:** when the next known option, flag or input comes up, or
at the end.  An unknown option in between is reported first.
-/

namespace CallCommunities.Command

/-- How the result of detection is written. -/
inductive Format where
  | text
  | json
deriving DecidableEq

/-- What is asked of detection. -/
structure Options where
  input : String
  config : Option String
  granularity : Option Granularity
  prior : Option String
  format : Format
  output : Option String
  showGraph : Bool
  plain : Bool
  /-- How often more logging is asked for, at most 255. -/
  verbosity : Nat
deriving DecidableEq

/-- What a command line asks for. -/
inductive Request where
  | detect (options : Options)
  /-- Print the default settings. -/
  | config
deriving DecidableEq

/-- Why a command line asks for nothing that can be done. -/
inductive Stop where
  /-- It asks for help. -/
  | help
  /-- It asks for the version. -/
  | version
  /-- It does not say anything. -/
  | nothingAsked
  | missingInput
  | unknownCommand
  | unknownArgument
  /-- A value is missing, empty or not among those allowed. -/
  | invalidValue
  /-- Something is given twice. -/
  | conflict
  /-- A flag is given a value. -/
  | unexpectedValue
deriving DecidableEq

/-- What takes a value: the input and the options. -/
inductive Slot where
  | input
  | config
  | granularity
  | prior
  | format
  | output
deriving DecidableEq

/-- What stands without a value. -/
inductive Flag where
  | showGraph
  | plain
  | verbose
  | help
deriving DecidableEq

/-- A known option or flag. -/
inductive Known where
  | slot (s : Slot)
  | flag (f : Flag)
deriving DecidableEq

/-- The option or flag with a long name. -/
def longName? (name : List Char) : Option Known :=
  match String.ofList name with
  | "config" => some (.slot .config)
  | "granularity" => some (.slot .granularity)
  | "prior" => some (.slot .prior)
  | "format" => some (.slot .format)
  | "output" => some (.slot .output)
  | "show-graph" => some (.flag .showGraph)
  | "plain" => some (.flag .plain)
  | "verbose" => some (.flag .verbose)
  | "help" => some (.flag .help)
  | _ => none

/-- The option or flag with a name of one letter. -/
def shortName? (c : Char) : Option Known :=
  if c = 'c' then some (.slot .config)
  else if c = 'f' then some (.slot .format)
  else if c = 'o' then some (.slot .output)
  else if c = 'v' then some (.flag .verbose)
  else if c = 'h' then some (.flag .help)
  else none

/-- The format with a name. -/
def Format.ofWord? (text : String) : Option Format :=
  if text = "json" then some .json else if text = "text" then some .text else none

/-- A path that is not empty. -/
def pathOf? (text : String) : Option String := if text.isEmpty then none else some text

/-! ## The words after `detect` -/

/-- What has been read so far. -/
structure Scan where
  input : Option String
  config : Option String
  granularity : Option Granularity
  prior : Option String
  format : Option Format
  output : Option String
  showGraph : Bool
  plain : Bool
  verbosity : Nat
  /-- What still waits to be looked at: an option without its value, or anything with it. -/
  pending : Option (Slot × Option String)
  /-- Whether `--` has been read. -/
  onlyInputs : Bool

namespace Scan

/-- Nothing read. -/
def start : Scan := ⟨none, none, none, none, none, none, false, false, 0, none, false⟩

/-- Accepts a value for something that may be given once. -/
def once {α : Type} (old : Option α) (value : Option α) : Except Stop (Option α) :=
  match old, value with
  | some _, _ => .error .conflict
  | none, some x => .ok (some x)
  | none, none => .error .invalidValue

/-- Gives a slot its value. -/
def assign (s : Scan) (slot : Slot) (text : String) : Except Stop Scan :=
  match slot with
  | .input => do return { s with input := ← once s.input (pathOf? text) }
  | .config => do return { s with config := ← once s.config (pathOf? text) }
  | .granularity => do
    return { s with granularity := ← once s.granularity (Granularity.ofWord? text) }
  | .prior => do return { s with prior := ← once s.prior (pathOf? text) }
  | .format => do return { s with format := ← once s.format (Format.ofWord? text) }
  | .output => do return { s with output := ← once s.output (pathOf? text) }

/-- Looks at what was left for later. -/
def settle (s : Scan) : Except Stop Scan :=
  match s.pending with
  | none => .ok s
  | some (_, none) => .error .invalidValue
  | some (slot, some text) => assign { s with pending := none } slot text

/-- Raises a flag. -/
def raise (s : Scan) : Flag → Except Stop Scan
  | .showGraph => if s.showGraph then .error .conflict else .ok { s with showGraph := true }
  | .plain => if s.plain then .error .conflict else .ok { s with plain := true }
  | .verbose => .ok { s with verbosity := if s.verbosity < 255 then s.verbosity + 1 else 255 }
  | .help => .error .help

/-- Leaves an option and, perhaps, its value for later. -/
def postpone (s : Scan) (slot : Slot) (text : Option String) : Except Stop Scan := do
  return { ← s.settle with pending := some (slot, text) }

/-- Gives a slot a value from the same word, at once. -/
def attach (s : Scan) (slot : Slot) (text : List Char) : Except Stop Scan := do
  (← s.settle).assign slot (String.ofList text)

/-- Reads a word with a long name; `word` comes after the two dashes. -/
def long (s : Scan) (word : List Char) : Except Stop Scan :=
  let (name, rest) := word.span (· != '=')
  match longName? name, rest with
  | none, _ => .error .unknownArgument
  | some (.slot slot), [] => s.postpone slot none
  | some (.slot slot), _ :: value => s.attach slot value
  | some (.flag flag), [] => do (← s.settle).raise flag
  | some (.flag _), _ :: _ => .error .unexpectedValue

/-- The value after a name of one letter in the same word; an equals sign before it is left out. -/
def attachedValue : List Char → List Char
  | '=' :: rest => rest
  | cs => cs

/-- Reads a word with names of one letter; the letters come after the dash. -/
def short (s : Scan) : (letters : List Char) → Except Stop Scan
  | [] => .ok s
  | c :: rest =>
    match shortName? c with
    | none => .error .unknownArgument
    | some (.slot slot) =>
      if rest.isEmpty then s.postpone slot none else s.attach slot (attachedValue rest)
    | some (.flag flag) => do short (← (← s.settle).raise flag) rest

/-- Whether the input has been read. -/
def hasInput (s : Scan) : Bool :=
  s.input.isSome || match s.pending with
    | some (.input, _) => true
    | _ => false

/-- Reads a word that is an input. -/
def positional (s : Scan) (word : String) : Except Stop Scan :=
  if s.hasInput then .error .unknownArgument else s.postpone .input (some word)

/-- Reads a word that does not begin with a dash: the value that an option waits for, or an input. -/
def plainWord (s : Scan) (word : String) : Except Stop Scan :=
  match s.pending with
  | some (slot, none) => .ok { s with pending := some (slot, some word) }
  | _ => s.positional word

/-- Reads a word. -/
def word (s : Scan) (text : String) : Except Stop Scan :=
  if s.onlyInputs then s.positional text
  else
    match text.toList with
    | ['-', '-'] => .ok { s with onlyInputs := true }
    | '-' :: '-' :: rest => s.long rest
    | '-' :: c :: rest => s.short (c :: rest)
    | _ => s.plainWord text

/-- What all words ask for; without an option for it, the settings file is the one that the environment
names. -/
def finish (s : Scan) (environmentConfig : Option String) : Except Stop Options := do
  let s ← s.settle
  let config ← match s.config, environmentConfig with
    | none, some path => once none (pathOf? path)
    | config, _ => .ok config
  match s.input with
  | none => .error .missingInput
  | some input =>
    return ⟨input, config, s.granularity, s.prior, s.format.getD .text, s.output, s.showGraph,
      s.plain, s.verbosity⟩

end Scan

/-- What the words after `detect` ask for. -/
def detectOptions (environmentConfig : Option String) (words : List String) : Except Stop Options := do
  (← words.foldlM Scan.word .start).finish environmentConfig

/-! ## The other words -/

/-- What the words after `config` ask for: only help can be asked. -/
def configRequest : List String → Except Stop Request
  | [] => .ok .config
  | word :: rest =>
    match word.toList with
    | ['-', '-'] => if rest.isEmpty then .ok .config else .error .unknownArgument
    | '-' :: 'h' :: _ => .error .help
    | '-' :: '-' :: name =>
      let (name, value) := name.span (· != '=')
      if name = "help".toList then
        if value.isEmpty then .error .help else .error .unexpectedValue
      else .error .unknownArgument
    | _ => .error .unknownArgument

/-- What the words after `help` ask for: help on a command. -/
def helpRequest : List String → Stop
  | [] => .help
  | [command] => if ["detect", "config", "help"].contains command then .help else .unknownCommand
  | _ => .unknownCommand

/-- Reads a word with a long name before any command; the word comes after the two dashes. -/
def generalLong (word : List Char) : Stop :=
  let (name, value) := word.span (· != '=')
  if name = "help".toList || name = "version".toList then
    if !value.isEmpty then .unexpectedValue
    else if name = "help".toList then .help else .version
  else .unknownArgument

/-- The names of the commands. -/
def commandNames : List String := ["detect", "config", "help"]

/-- What a command line asks for.  `environmentConfig` is the settings file that the environment names. -/
def requestOf (environmentConfig : Option String) : (words : List String) → Except Stop Request
  | [] => .error .nothingAsked
  | word :: rest =>
    match word.toList with
    | ['-', '-'] =>
      match rest with
      | [] => .error .nothingAsked
      | next :: _ =>
        if commandNames.contains next then .error .unknownArgument else .error .unknownCommand
    | '-' :: '-' :: name => .error (generalLong name)
    | '-' :: 'h' :: _ => .error .help
    | '-' :: 'V' :: _ => .error .version
    | '-' :: _ :: _ => .error .unknownArgument
    | _ =>
      if word = "detect" then (detectOptions environmentConfig rest).map .detect
      else if word = "config" then configRequest rest
      else if word = "help" then .error (helpRequest rest)
      else .error .unknownCommand

/-- The directive that a number of requests for more logging stands for. -/
def logDirective (verbosity : Nat) : String :=
  match verbosity with
  | 0 => "servicemap=warn"
  | 1 => "servicemap=debug"
  | _ => "servicemap=trace"

end CallCommunities.Command
