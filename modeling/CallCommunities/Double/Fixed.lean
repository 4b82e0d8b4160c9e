import CallCommunities.Double.Binary
import CallCommunities.Double.Nearest

/-!
# Double/Fixed — doubles with a fixed number of places

The exact value is rounded to the given number of places after the point, a half to the even neighbour.
The sign stays where the digits round to zero.
-/

namespace CallCommunities.Double

/-- A whole number of `10 ^ -places` units as digits with a point before the last `places`. -/
def placePoint (places units : Nat) : String :=
  let fraction := toString (units % tenPow places)
  let padding := String.ofList (List.replicate (places - fraction.length) '0')
  toString (units / tenPow places) ++ "." ++ padding ++ fraction

/-- The number of `10 ^ -places` units nearest to a value without its sign. -/
def unitsOf (places : Nat) (b : Binary) : Nat :=
  roundHalfEven (b.mantissa * twoPow b.exponent.toNat * tenPow places) (twoPow (-b.exponent).toNat)

/-- A double with `places` digits after the point. -/
def fixed (places : Nat) (x : Float) : String :=
  let b := toBinary x
  (if b.negative then "-" else "") ++ placePoint places (unitsOf places b)

end CallCommunities.Double
