/-!
# Identity — method identities, their classes, and the granularity of a graph

An identity such as `app.Orders.place` names a method; **its class is the text before the last
dot**, when there is such a text.  A `Granularity` says whether the vertices of a call graph are
methods or whole classes.
-/

namespace CallCommunities

/-- The characters before the last dot, if there is a dot. -/
def beforeLastDot : List Char → Option (List Char)
  | [] => none
  | c :: rest =>
    match beforeLastDot rest with
    | some before => some (c :: before)
    | none => if c = '.' then some [] else none

/-- The class that owns an identity.  An identity with nothing before its last dot, or without a
dot, is a class of its own. -/
def classOf (identity : String) : String :=
  match beforeLastDot identity.toList with
  | some (c :: rest) => String.ofList (c :: rest)
  | _ => identity

/-- What one vertex of a call graph stands for. -/
inductive Granularity where
  /-- One vertex for each method identity. -/
  | perMethod
  /-- One vertex for each class. -/
  | perClass
deriving DecidableEq

namespace Granularity

/-- The vertex identity of a method identity. -/
def resolve : Granularity → String → String
  | perMethod, identity => identity
  | perClass, identity => classOf identity

/-- The word for a granularity in configurations and on the command line. -/
def word : Granularity → String
  | perMethod => "method"
  | perClass => "class"

/-- The granularity that a word stands for. -/
def ofWord? (text : String) : Option Granularity :=
  if text = "method" then some perMethod
  else if text = "class" then some perClass
  else none

/-- Reads a word without regard to the case of ASCII letters; the error is its message. -/
def parse (text : String) : Except String Granularity :=
  let lowered := text.map Char.toLower
  match ofWord? lowered with
  | some granularity => .ok granularity
  | none => .error s!"unknown granularity '{lowered}', expected 'method' or 'class'"

end Granularity

end CallCommunities
