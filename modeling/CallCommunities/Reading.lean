import CallCommunities.CallGraph.Builder
import CallCommunities.Json.Parser

/-!
# Reading — observations and named assignments from JSON

Observations come as an array.  Each is an object with the fields `caller`, `callee` and `count`, in any
order and with any others, or an array of just these three.  A count is written without fraction and
exponent and fits in 64 bits.  A named assignment is an object of strings.
-/

namespace CallCommunities

open Json (Value)

/-- The text of a string value. -/
def textOf? : Value → Option String
  | .string text => text
  | _ => none

/-- The number that decimal digits write. -/
def numberOfDigits? (digits : List Char) : Option Nat :=
  if digits.isEmpty || !digits.all Char.isDigit then none
  else some (digits.foldl (fun n c => 10 * n + (c.toNat - '0'.toNat)) 0)

/-- The whole number of a literal without fraction and exponent, which is not the negative zero. -/
def wholeOf? (literal : List Char) : Option Int :=
  match literal with
  | '-' :: digits => (numberOfDigits? digits).bind fun n => if n = 0 then none else some (-(n : Int))
  | digits => (numberOfDigits? digits).map Int.ofNat

/-- The count of a number value: a whole number of 64 bits with a sign. -/
def countOf? : Value → Option Int
  | .number literal =>
    (wholeOf? literal.toList).filter fun n => decide (-(twoPow 63 : Int) ≤ n ∧ n < twoPow 63)
  | _ => none

/-- The value of a field that has to stand exactly once. -/
def fieldOnce? (members : List (Option String × Value)) (field : String) : Option Value :=
  match members.filter fun e => e.1 = some field with
  | [(_, value)] => some value
  | _ => none

/-- The observation that a value describes. -/
def observationOf? : Value → Option Observation
  | .array [caller, callee, count] => do
    return ⟨← textOf? caller, ← textOf? callee, ← countOf? count⟩
  | .object members =>
    if members.any fun e => e.1.isNone then none
    else do
      let caller ← textOf? (← fieldOnce? members "caller")
      let callee ← textOf? (← fieldOnce? members "callee")
      let count ← countOf? (← fieldOnce? members "count")
      return ⟨caller, callee, count⟩
  | _ => none

/-- The pair of texts that a member of an object describes. -/
def namePairOf? (member : Option String × Value) : Option (String × String) := do
  return (← member.1, ← textOf? member.2)

/-- The observations of a JSON text. -/
def readObservations? (text : String) : Option (List Observation) :=
  match Json.parse? text with
  | some (.array items) => items.mapM observationOf?
  | _ => none

/-- The named assignment of a JSON text; of two members with one key the later counts. -/
def readNames? (text : String) : Option (SortedMap String String) :=
  match Json.parse? text with
  | some (.object members) => (members.mapM namePairOf?).map SortedMap.ofList
  | _ => none

end CallCommunities
