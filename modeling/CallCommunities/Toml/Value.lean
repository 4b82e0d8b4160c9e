/-!
# Toml/Value — TOML documents

A table remembers what brought it into being, because that decides what may still be added to it:
an inline table is complete, a dotted key only extends what dotted keys began, and a header may define
a table that so far only stood above others.
-/

namespace CallCommunities.Toml

/-- What brought a table into being. -/
inductive Origin where
  /-- Braces: nothing can be added. -/
  | inline
  /-- A header of its own, or the start of the document. -/
  | header
  /-- A header further down. -/
  | implied
  /-- A dotted key. -/
  | dotted
deriving DecidableEq

/-- A TOML value. -/
inductive Value where
  | boolean (b : Bool)
  | integer (n : Int)
  /-- The finite float `± digits · 10 ^ exponent`; its sign plays no role here. -/
  | float (digits : Nat) (exponent : Int)
  /-- An infinity or not a number. -/
  | nonFinite
  | string (text : String)
  /-- A date, a time, or both. -/
  | moment
  | array (items : List Value)
  | table (origin : Origin) (entries : List (String × Value))
  /-- The tables of headers in double brackets. -/
  | tables (rows : List (List (String × Value)))

end CallCommunities.Toml
