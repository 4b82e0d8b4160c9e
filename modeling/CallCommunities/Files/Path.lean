/-!
# Files/Path — paths as texts

A path is a text whose parts are set apart by slashes.  Empty parts and parts `.` name nothing, except
for a `.` at the very beginning.  **The parent of a path keeps the text before its last part as it is**;
the empty path and the root have none.
-/

namespace CallCommunities.Files

/-- The parts of a path, empty ones included; there is at least one. -/
def splitPath : List Char → List (List Char)
  | [] => [[]]
  | c :: rest =>
    match splitPath rest with
    | [] => [[c]]
    | part :: parts => if c = '/' then [] :: part :: parts else (c :: part) :: parts

/-- The text of parts with slashes between them. -/
def joinParts : List (List Char) → List Char
  | [] => []
  | [part] => part
  | part :: parts => part ++ '/' :: joinParts parts

/-- Whether a part names nothing. -/
def isTrivial (part : List Char) : Bool := part = [] || part = ['.']

/-- The parts without the trivial ones at the end. -/
def trimParts (parts : List (List Char)) : List (List Char) :=
  (parts.reverse.dropWhile isTrivial).reverse

/-- The parts before the last one that names something, if there is one. -/
def beforeLast? (parts : List (List Char)) : Option (List (List Char)) :=
  match (parts.reverse.dropWhile isTrivial) with
  | [] => none
  | _ :: before => some (trimParts before.reverse)

/-- The parent of a path. -/
def parent? (path : String) : Option String :=
  match splitPath path.toList with
  | [] :: part :: parts =>
    (beforeLast? (part :: parts)).map fun before => String.ofList ('/' :: joinParts before)
  | ['.'] :: parts =>
    match beforeLast? parts with
    | some before => some (String.ofList (joinParts (['.'] :: before)))
    | none => some ""
  | parts => (beforeLast? parts).map fun before => String.ofList (joinParts before)

/-- A path and its ancestors, nearest first, at most `count` of them. -/
def ancestors : (count : Nat) → (path : String) → List String
  | 0, _ => []
  | count + 1, path =>
    path ::
      match parent? path with
      | some parent => ancestors count parent
      | none => []

/-- The path of `child` seen from `path`; a child that begins at the root is a path by itself. -/
def join (path child : String) : String :=
  if child.toList.head? = some '/' then child
  else if path.isEmpty || path.toList.getLast? = some '/' then path ++ child
  else path ++ "/" ++ child

end CallCommunities.Files
