import CallCommunities.Toml.Value

/-!
# Toml/Table — building tables from keys and headers

The entries of a document come one by one, each under a path of keys.  A path may pass through a table or
through the last table of a series of headers in double brackets; `descend` walks it, makes the tables
that are missing, and lets a policy say which of the others may be passed.
-/

namespace CallCommunities.Toml

/-- The entries of a table, in the order in which their keys came up. -/
abbrev Entries := List (String × Value)

/-- Sets the value of a key, at its place if it has one. -/
def setEntry (k : String) (v : Value) : Entries → Entries
  | [] => [(k, v)]
  | (j, x) :: rest => if j = k then (k, v) :: rest else (j, x) :: setEntry k v rest

/-- Replaces the last row of a series. -/
def mapLast (f : Entries → Option Entries) : List Entries → Option (List Entries)
  | [] => none
  | [row] => (f row).map fun row => [row]
  | row :: rows => (mapLast f rows).map (row :: ·)

/-- Walks a path down from a table and changes the entries it ends at.  Missing tables get the origin
`fresh`; `passes` says which tables may be passed by their origin. -/
def descend (fresh : Origin) (passes : Origin → Bool)
    (change : Origin → Entries → Option Entries) :
    (path : List String) → Origin → Entries → Option Entries
  | [], origin, entries => change origin entries
  | k :: path, _, entries =>
    match entries.lookup k with
    | none => (descend fresh passes change path fresh []).map
        fun inner => setEntry k (.table fresh inner) entries
    | some (.table origin inner) =>
      if passes origin then
        (descend fresh passes change path origin inner).map
          fun inner => setEntry k (.table origin inner) entries
      else none
    | some (.tables rows) => (mapLast (descend fresh passes change path .header) rows).map
        fun rows => setEntry k (.tables rows) entries
    | some _ => none

/-- Adds a key that is not there yet. -/
def addEntry (k : String) (v : Value) (entries : Entries) : Option Entries :=
  match entries.lookup k with
  | none => some (setEntry k v entries)
  | some _ => none

/-- Adds a value under a key.  A dotted key reaches its table only through tables without a header, and
the table it ends in has to be one that dotted keys made. -/
def define (path : List String) (k : String) (v : Value) : Origin → Entries → Option Entries :=
  descend .dotted (fun origin => origin = .implied || origin = .dotted)
    (fun origin entries =>
      if path.isEmpty || origin = .dotted then addEntry k v entries else none)
    path

/-- Which tables a header may stand below: all but inline ones. -/
def isOpen (origin : Origin) : Bool := origin != .inline

/-- Opens the table of a header, which may not have a header yet. -/
def openTable (path : List String) (k : String) : Entries → Option Entries :=
  descend .implied isOpen
    (fun _ entries =>
      match entries.lookup k with
      | none => some (setEntry k (.table .header []) entries)
      | some (.table .implied inner) => some (setEntry k (.table .header inner) entries)
      | some _ => none)
    path .header

/-- Opens a new table in the series of a header in double brackets. -/
def appendTable (path : List String) (k : String) : Entries → Option Entries :=
  descend .implied isOpen
    (fun _ entries =>
      match entries.lookup k with
      | none => some (setEntry k (.tables [[]]) entries)
      | some (.tables rows) => some (setEntry k (.tables (rows ++ [[]])) entries)
      | some _ => none)
    path .header

/-- Adds a value to the table that a header opened. -/
def defineBelow (header : List String) (path : List String) (k : String) (v : Value) :
    Entries → Option Entries :=
  descend .implied isOpen (fun _ entries => define path k v .header entries) header .header

end CallCommunities.Toml
