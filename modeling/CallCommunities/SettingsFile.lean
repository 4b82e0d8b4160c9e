import CallCommunities.Power
import CallCommunities.Settings
import CallCommunities.Toml.Parser

/-!
# SettingsFile — settings as a TOML document

The settings stand in the table `detection`; what is missing takes its default, and other keys and tables
are passed over.  An array in place of the table gives the settings in their order, and a date or time
gives none of them.
-/

namespace CallCommunities

namespace SettingsFile

open Toml (Value Entries)

/-- The name of a file with settings. -/
def fileName : String := ".servicemap.toml"

/-- Whether a finite float lies so far out that no double is near: beyond the greatest double by half
of its last binary place or more. -/
def overflows (digits : Nat) (exponent : Int) : Bool :=
  let places := (Nat.toDigits 10 digits).length + exponent
  if digits = 0 || places ≤ 308 then false
  else if 309 < places then true
  else
    decide ((twoPow 1024 - twoPow 970) * tenPow (-exponent).toNat ≤ digits * tenPow exponent.toNat)

mutual

/-- Whether every number in a value is within the range of numbers. -/
def isRepresentable : Value → Bool
  | .boolean _ => true
  | .integer n => decide (-(twoPow 127 : Int) ≤ n ∧ n < twoPow 128)
  | .float digits exponent => !overflows digits exponent
  | .nonFinite => true
  | .string _ => true
  | .moment => true
  | .array items => areRepresentable items
  | .table _ entries => entriesRepresentable entries
  | .tables rows => rowsRepresentable rows

/-- Whether every number in the items of an array is within the range of numbers. -/
def areRepresentable : List Value → Bool
  | [] => true
  | v :: rest => isRepresentable v && areRepresentable rest

/-- Whether every number in the entries of a table is within the range of numbers. -/
def entriesRepresentable : List (String × Value) → Bool
  | [] => true
  | (_, v) :: rest => isRepresentable v && entriesRepresentable rest

/-- Whether every number in a series of tables is within the range of numbers. -/
def rowsRepresentable : List (List (String × Value)) → Bool
  | [] => true
  | row :: rest => entriesRepresentable row && rowsRepresentable rest

end

/-- A ceiling: a whole number of 64 bits. -/
def ceilingOf? : Value → Option Nat
  | .integer n => if 0 ≤ n ∧ n < twoPow 64 then some n.toNat else none
  | _ => none

/-- A truth value. -/
def switchOf? : Value → Option Bool
  | .boolean b => some b
  | _ => none

/-- Whether a value holds nothing. -/
def isHollow : Value → Bool
  | .array items => items.isEmpty
  | .table _ entries => entries.isEmpty
  | _ => false

/-- A granularity: its word, or a table with the word as its only key and nothing below. -/
def granularityOf? : Value → Option Granularity
  | .string text => Granularity.ofWord? text
  | .table _ [(text, value)] => if isHollow value then Granularity.ofWord? text else none
  | _ => none

/-- The value that a key of a table stands for, or the fallback where the key is missing. -/
def settingOr {α : Type} (read : Value → Option α) (fallback : α) : Option Value → Option α
  | none => some fallback
  | some v => read v

/-- Settings from the values given for them. -/
def assemble? (maxIterations maxLevels refine granularity : Option Value) : Option Settings := do
  return {
    maxIterations := ← settingOr ceilingOf? Settings.default.maxIterations maxIterations
    maxLevels := ← settingOr ceilingOf? Settings.default.maxLevels maxLevels
    refine := ← settingOr switchOf? Settings.default.refine refine
    granularity := ← settingOr granularityOf? Settings.default.granularity granularity }

/-- The keys of the settings. -/
def settingKeys : List String := ["max_iterations", "max_levels", "refine", "granularity"]

/-- Settings from a table. -/
def ofEntries? (entries : Entries) : Option Settings :=
  if entriesRepresentable (entries.filter fun e => !settingKeys.contains e.1) then
    assemble? (entries.lookup "max_iterations") (entries.lookup "max_levels")
      (entries.lookup "refine") (entries.lookup "granularity")
  else none

/-- Settings from the value of the key `detection`.  A date or time counts as a table without settings. -/
def ofValue? : Value → Option Settings
  | .table _ entries => ofEntries? entries
  | .moment => some .default
  | .array items => assemble? items[0]? items[1]? items[2]? items[3]?
  | .tables rows =>
    let items := rows.map (Value.table .header)
    assemble? items[0]? items[1]? items[2]? items[3]?
  | _ => none

/-- Settings from a document. -/
def ofDocument? (entries : Entries) : Option Settings :=
  if entriesRepresentable (entries.filter fun e => e.1 != "detection") then
    match entries.lookup "detection" with
    | none => some .default
    | some v => ofValue? v
  else none

/-- The valid settings of a text. -/
def parse (text : String) : Except Error Settings :=
  match (Toml.parse? text).bind ofDocument? with
  | none => .error .malformedConfig
  | some settings => do
    settings.validate
    return settings

/-- The text that gives settings. -/
def render (s : Settings) : String :=
  s!"[detection]\nmax_iterations = {s.maxIterations}\nmax_levels = {s.maxLevels}\n"
    ++ s!"refine = {s.refine}\ngranularity = \"" ++ s.granularity.word ++ "\"\n"

end SettingsFile

end CallCommunities
