import CallCommunities.Files.Path
import CallCommunities.SortedMap

/-!
# Files/Tree — directories and files as data

A tree records what stands at each place, a place being the list of names that leads to it from the root.
Paths are followed as an operating system follows them: every part before the last has to be a
directory, `..` leads to the directory above, and a path that ends in a slash names a directory.
-/

namespace CallCommunities.Files

/-- The names that lead from the root to a file or directory. -/
abbrev Place := List String

/-- What stands at a place. -/
inductive Node where
  | directory
  | file (content : ByteArray)

/-- The files and directories below the root. -/
structure Tree where
  nodes : SortedMap Place Node

namespace Tree

/-- The tree with the root alone. -/
def empty : Tree := ⟨.empty⟩

/-- What stands at a place; the root is always a directory. -/
def nodeAt? (t : Tree) (place : Place) : Option Node :=
  if place.isEmpty then some .directory else t.nodes.get? place

/-- Whether a directory stands at a place. -/
def isDirectory (t : Tree) (place : Place) : Bool :=
  match t.nodeAt? place with
  | some .directory => true
  | _ => false

/-- Puts a node at a place. -/
def put (t : Tree) (place : Place) (node : Node) : Tree := ⟨t.nodes.insert place node⟩

/-- Makes the directories that lead to a place where they are missing. -/
def makeDirectories (t : Tree) (place : Place) : Tree :=
  (List.range (place.length + 1)).foldl
    (fun t n => if (t.nodeAt? (place.take n)).isSome then t else t.put (place.take n) .directory) t

/-- Follows the parts of a path from a place. -/
def follow (t : Tree) : (here : Place) → (parts : List String) → Option Place
  | here, [] => some here
  | here, part :: parts =>
    if t.isDirectory here then
      if part = "" ∨ part = "." then follow t here parts
      else if part = ".." then follow t here.dropLast parts
      else if (t.nodeAt? (here ++ [part])).isSome then follow t (here ++ [part]) parts
      else none
    else none

/-- The parts of a path as texts. -/
def partsOf (path : String) : List String := (splitPath path.toList).map String.ofList

/-- The place where a path begins: the root for a path that begins with a slash. -/
def origin (workingDirectory : Place) (path : String) : Place :=
  if path.toList.head? = some '/' then [] else workingDirectory

/-- The greatest length of a path, in bytes. -/
def maxPathLength : Nat := 4095

/-- The greatest length of a name in a directory, in bytes. -/
def maxNameLength : Nat := 255

/-- Whether a path can be followed at all: it is not empty and not too long. -/
def isUsable (path : String) : Bool := !path.isEmpty && path.utf8ByteSize ≤ maxPathLength

/-- The place that a path names, if something stands there. -/
def locate (t : Tree) (workingDirectory : Place) (path : String) : Option Place :=
  if isUsable path then t.follow (origin workingDirectory path) (partsOf path) else none

/-- The content of the file that a path names, if it is text in UTF-8. -/
def readText (t : Tree) (workingDirectory : Place) (path : String) : Option String :=
  match (t.locate workingDirectory path).bind t.nodeAt? with
  | some (.file content) => String.fromUTF8? content
  | _ => none

/-- Whether a file can have the name. -/
def isFileName (name : String) : Bool :=
  name != "" && name != "." && name != ".." && name.utf8ByteSize ≤ maxNameLength

/-- The place where a file with the given path would be written: its directory has to exist, and no
directory may stand there. -/
def target? (t : Tree) (workingDirectory : Place) (path : String) : Option Place :=
  let parts := partsOf path
  let name := parts.getLast?.getD ""
  if !isUsable path || !isFileName name then none
  else do
    let directory ← t.follow (origin workingDirectory path) parts.dropLast
    let place := directory ++ [name]
    if t.isDirectory directory && !t.isDirectory place then some place else none

/-- The tree after a text is written to a path, if it can be written there. -/
def writeText (t : Tree) (workingDirectory : Place) (path text : String) : Option Tree :=
  (t.target? workingDirectory path).map fun place => t.put place (.file text.toUTF8)

/-- The path of a place from the root. -/
def pathOf (place : Place) : String := "/" ++ "/".intercalate place

end Tree

end CallCommunities.Files
