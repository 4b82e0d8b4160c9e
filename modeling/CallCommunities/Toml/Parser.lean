import CallCommunities.Toml.Table
import CallCommunities.Toml.Text

/-!
# Toml/Parser — reading TOML text

The reader follows version 1.1 of the format: inline tables may span lines and end in a comma, and a byte
order mark at the start is passed over.  Arrays and inline tables nest at most `maxNesting` deep.

Between brackets and braces a line may end wherever a blank may stand, except inside a key; outside of
them an entry keeps to its line.
-/

namespace CallCommunities.Toml

/-- How deep arrays and inline tables may stand inside each other. -/
def maxNesting : Nat := 80

/-- A key split into its table and its last part. -/
def splitKey (parts : List String) : List String × String :=
  (parts.dropLast, parts.getLast?.getD "")

mutual

/-- Takes a value off the front.  `nesting` is how many more arrays and inline tables may open. -/
def readValue : (fuel nesting : Nat) → List Char → Option (Value × List Char)
  | 0, _, _ => none
  | fuel + 1, nesting, cs =>
    match cs with
    | [] => none
    | c :: rest =>
      if c = '"' || c = '\'' then
        (readString (fuel + 1) cs).map fun (text, rest) => (.string (String.ofList text), rest)
      else if c = '[' then
        if nesting = 0 then none
        else (readItems fuel (nesting - 1) rest).map fun (items, rest) => (.array items, rest)
      else if c = '\x7b' then
        if nesting = 0 then none
        else (readInline fuel (nesting - 1) [] rest).map
          fun (entries, rest) => (.table .inline entries, rest)
      else readScalar cs

/-- Takes the items of an array up to its closing bracket. -/
def readItems : (fuel nesting : Nat) → List Char → Option (List Value × List Char)
  | 0, _, _ => none
  | fuel + 1, nesting, cs => do
    match ← skipLines fuel cs with
    | ']' :: rest => some ([], rest)
    | cs => do
      let (item, rest) ← readValue fuel nesting cs
      match ← skipLines fuel rest with
      | ',' :: rest => (readItems fuel nesting rest).map fun (items, rest) => (item :: items, rest)
      | ']' :: rest => some ([item], rest)
      | _ => none

/-- Takes the entries of an inline table up to its closing brace and adds them to those before. -/
def readInline : (fuel nesting : Nat) → Entries → List Char → Option (Entries × List Char)
  | 0, _, _, _ => none
  | fuel + 1, nesting, entries, cs => do
    match ← skipLines fuel cs with
    | '\x7d' :: rest => some (entries, rest)
    | cs => do
      let (parts, rest) ← readKey fuel cs
      let rest ← skipLines fuel rest >>= takeChar '=' >>= skipLines fuel
      let (value, rest) ← readValue fuel nesting rest
      let (path, k) := splitKey parts
      let entries ← define path k value .inline entries
      match ← skipLines fuel rest with
      | ',' :: rest => readInline fuel nesting entries rest
      | '\x7d' :: rest => some (entries, rest)
      | _ => none

end

/-- Takes a key with an equals sign and a value off the front. -/
def readEntry (fuel : Nat) (cs : List Char) : Option ((List String × Value) × List Char) := do
  let (parts, rest) ← readKey fuel cs
  let rest ← takeChar '=' rest
  let (value, rest) ← readValue fuel maxNesting (skipBlanks rest)
  return ((parts, value), rest)

/-- Takes the lines of a document below a header and adds them to the entries before. -/
def readLines : (fuel : Nat) → (header : List String) → Entries → List Char → Option Entries
  | 0, _, _, _ => none
  | fuel + 1, header, entries, cs => do
    match ← skipLines fuel cs with
    | [] => some entries
    | '[' :: '[' :: rest => do
      let (parts, rest) ← readKey fuel rest
      let rest ← takeChar ']' rest >>= takeChar ']' >>= endLine
      let (path, k) := splitKey parts
      readLines fuel parts (← appendTable path k entries) rest
    | '[' :: rest => do
      let (parts, rest) ← readKey fuel rest
      let rest ← takeChar ']' rest >>= endLine
      let (path, k) := splitKey parts
      readLines fuel parts (← openTable path k entries) rest
    | cs => do
      let ((parts, value), rest) ← readEntry fuel cs
      let rest ← endLine rest
      let (path, k) := splitKey parts
      readLines fuel header (← defineBelow header path k value entries) rest

/-- The characters after a byte order mark at the start. -/
def skipByteOrderMark : List Char → List Char
  | '\ufeff' :: rest => rest
  | cs => cs

/-- The entries of a document.  Every step of the readers takes a character off or is one of two that
precede such a step, so twice the length of the text bounds their depth. -/
def parse? (text : String) : Option Entries :=
  readLines (2 * text.length + 2) [] [] (skipByteOrderMark text.toList)

end CallCommunities.Toml
