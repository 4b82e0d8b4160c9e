import CallCommunities.Double.Binary

/-!
# Double/Shortest — the shortest decimal that reads back

Every double is the nearest double to all reals of an interval around it, whose ends belong to it when
the mantissa is even.  The digits written are those of the coarsest decimal grid with a point in that
interval; of two such points the nearer counts, and of two equally near ones the even one.

All comparisons are between whole numbers: with `4 · mantissa` quarters of the last binary place, the
interval reaches two quarters up, and two down, or one where the binary places below are finer.
-/

namespace CallCommunities.Double

/-- The value `digits · 10 ^ exponent`. -/
structure Decimal where
  digits : Nat
  exponent : Int
deriving DecidableEq

/-- What it takes to compare decimals with a double: a common unit in which a quarter of its last binary
place measures `quarter` and a point `d` of the decimal grid measures `d · step`. -/
structure Grid where
  quarter : Nat
  step : Nat

/-- The units for the decimal grid `10 ^ e` and a last binary place of `2 ^ q`. -/
def gridOf (q e : Int) : Grid where
  quarter := twoPow (q - 2).toNat * tenPow (-e).toNat
  step := tenPow e.toNat * twoPow (2 - q).toNat

/-- How far the interval reaches below, in quarters of the last binary place. -/
def quartersBelow (b : Binary) : Nat :=
  if b.mantissa = twoPow 52 ∧ -1074 < b.exponent then 1 else 2

/-- Whether the point `d` of the grid reads back as the double. -/
def readsBack (b : Binary) (g : Grid) (d : Nat) : Bool :=
  let low := (4 * b.mantissa - quartersBelow b) * g.quarter
  let high := (4 * b.mantissa + 2) * g.quarter
  if b.mantissa % 2 = 0 then decide (low ≤ d * g.step ∧ d * g.step ≤ high)
  else decide (low < d * g.step ∧ d * g.step < high)

/-- The point of the grid `10 ^ e` to write, if one reads back. -/
def onGrid? (b : Binary) (e : Int) : Option Nat :=
  let g := gridOf b.exponent e
  let value := 4 * b.mantissa * g.quarter
  let d := value / g.step
  let below := value - d * g.step
  let above := (d + 1) * g.step - value
  match readsBack b g d, readsBack b g (d + 1) with
  | true, true => if below < above ∨ (below = above ∧ d % 2 = 0) then some d else some (d + 1)
  | true, false => some d
  | false, true => some (d + 1)
  | false, false => none

/-- The coarsest of the grids `10 ^ e`, `10 ^ (e - 1)`, … with a point that reads back. -/
def coarsest (b : Binary) : (grids : Nat) → (e : Int) → Decimal
  | 0, _ => ⟨b.mantissa, b.exponent⟩
  | grids + 1, e =>
    match onGrid? b e with
    | some d => ⟨d, e⟩
    | none => coarsest b grids (e - 1)

/-- Divides out the tens of a decimal. -/
def dropZeros : (digits : Nat) → Decimal → Decimal
  | 0, d => d
  | digits + 1, d =>
    if d.digits ≠ 0 ∧ d.digits % 10 = 0 then dropZeros digits ⟨d.digits / 10, d.exponent + 1⟩ else d

/-- The shortest decimal that reads back as a value other than zero.  A double lies below `10 ^ 309`,
and the grid `10 ^ -324` is finer than every double. -/
def shortest (b : Binary) : Decimal := dropZeros 20 (coarsest b 640 309)

/-- How a decimal is laid out: with `point` digits before the point, positional writing is used for
`lowest < point ≤ highest`, and scientific writing otherwise. -/
structure Layout where
  lowest : Int
  highest : Int

/-- Digits and their decimal exponent in positional or scientific writing. -/
def layOut (layout : Layout) (d : Decimal) : String :=
  let digits := Nat.toDigits 10 d.digits
  let point := d.exponent + digits.length
  let zeros := fun n : Int => List.replicate n.toNat '0'
  if layout.lowest < point ∧ point ≤ layout.highest then
    if d.exponent ≥ 0 then String.ofList (digits ++ zeros d.exponent ++ ['.', '0'])
    else if 0 < point then
      String.ofList (digits.take point.toNat ++ '.' :: digits.drop point.toNat)
    else String.ofList ('0' :: '.' :: zeros (-point) ++ digits)
  else
    let mantissa := match digits with
      | [] => []
      | [c] => [c]
      | c :: rest => c :: '.' :: rest
    String.ofList mantissa ++ "e" ++ toString (point - 1)

/-- A double in the shortest form that reads back, for numbers of documents: positional from `1e-5` up
to sixteen digits before the point, and always with a point or an exponent. -/
def text (x : Float) : String :=
  let b := toBinary x
  let sign := if b.negative then "-" else ""
  sign ++ if b.mantissa = 0 then "0.0" else layOut ⟨-5, 16⟩ (shortest b)

end CallCommunities.Double
