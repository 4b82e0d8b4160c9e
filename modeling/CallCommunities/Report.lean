import CallCommunities.Candidate

/-!
# Report — a partition for people to read

A report lists the candidates that span several classes and sums up the rest: a community inside one
class would not change the structure of the code.
-/

namespace CallCommunities

/-- The candidates of an assignment, by whether they are of interest. -/
structure Report where
  title : String
  vertexCount : Nat
  /-- The candidates that span several classes. -/
  interesting : List Candidate
  /-- The candidates inside one class. -/
  ignored : List Candidate

/-- A text that ends its line. -/
def line (text : String) : String := text ++ "\n"

namespace Report

/-- The report on an assignment. -/
def ofAssignment (title : String) (g : CallGraph) (assignment : SortedMap String String) : Report :=
  let candidates := Candidate.ofAssignment g assignment
  { title
    vertexCount := assignment.size
    interesting := candidates.filter (·.crossesClasses)
    ignored := candidates.filter (!·.crossesClasses) }

/-- The lines of one candidate of interest. -/
def candidateLines (c : Candidate) : List String :=
  ["", s!"Candidate {c.identifier} [" ++ ", ".intercalate c.classes ++ "]"]
    ++ c.members.map fun m => if c.entryPoints.contains m then s!"  {m} (interface)" else s!"  {m}"

/-- The line of one ignored candidate. -/
def ignoredLine (c : Candidate) : String :=
  s!"  {c.identifier} [" ++ ", ".intercalate c.classes ++ s!"] {c.members.length} members"

/-- The lines of a report. -/
def lines (r : Report) : List String :=
  let interesting := r.interesting.length
  let ignored := r.ignored.length
  [r.title, s!"{r.vertexCount} vertices in {interesting + ignored} communities "
      ++ s!"({interesting} candidates, {ignored} ignored)"]
    ++ r.interesting.flatMap candidateLines
    ++ if r.ignored.isEmpty then []
      else ["", "Ignored (single class):"] ++ r.ignored.map ignoredLine

/-- The text of a report. -/
def render (r : Report) : String := String.join (r.lines.map line)

end Report

end CallCommunities
