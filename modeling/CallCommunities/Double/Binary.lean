import CallCommunities.Power

/-!
# Double/Binary — the exact value of a double

A finite double is a whole number of at most 53 binary digits times a power of two, with a sign.
-/

namespace CallCommunities.Double

/-- The value `± mantissa · 2 ^ exponent`. -/
structure Binary where
  negative : Bool
  mantissa : Nat
  exponent : Int
deriving DecidableEq

/-- The exact value of a finite double. -/
def toBinary (x : Float) : Binary :=
  let bits := x.toBits.toNat
  let fraction : Nat := bits % twoPow 52
  let biased : Nat := bits / twoPow 52 % twoPow 11
  let negative := decide (twoPow 63 ≤ bits)
  if biased = 0 then ⟨negative, fraction, -1074⟩
  else ⟨negative, twoPow 52 + fraction, (biased : Int) - 1075⟩

end CallCommunities.Double
