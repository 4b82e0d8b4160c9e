/-!
# Json/Value — JSON documents

A document is kept as it is written: members in order, numbers as their literals.  An escaped unpaired
surrogate belongs to no text, so a string that holds one has no text at all; whether that matters is up
to whoever uses the string.
-/

namespace CallCommunities.Json

/-- A JSON value. -/
inductive Value where
  | null
  | bool (b : Bool)
  /-- A number, as it is written. -/
  | number (literal : String)
  /-- A string, or none for one with an unpaired surrogate. -/
  | string (text : Option String)
  | array (items : List Value)
  | object (members : List (Option String × Value))

namespace Value

/-- A string value of a text. -/
def ofText (text : String) : Value := .string (some text)

/-- A number value of a whole number. -/
def ofNat (n : Nat) : Value := .number (toString n)

/-- An array of texts. -/
def ofTexts (texts : List String) : Value := .array (texts.map ofText)

/-- An object with the given members. -/
def ofMembers (members : List (String × Value)) : Value :=
  .object (members.map fun (k, v) => (some k, v))

end Value

end CallCommunities.Json
