import CallCommunities.Power

/-!
# Double/Nearest — whole numbers as double-precision floats

A number of at most 53 binary digits is a double.  A longer one is rounded to 53 digits, to the nearest
and on a tie to the even neighbour, whatever its length.
-/

namespace CallCommunities.Double

/-- `n / d` rounded to the nearest whole number, a half to the even neighbour. -/
def roundHalfEven (n d : Nat) : Nat :=
  let q := n / d
  let r := n % d
  if d < 2 * r ∨ (2 * r = d ∧ q % 2 = 1) then q + 1 else q

/-- The double `2 ^ e`, assembled from its bits, for `e` up to 1023. -/
def powerOfTwo (e : Nat) : Float := Float.ofBits ((1023 + e) * twoPow 52).toUInt64

/-- The double nearest to `n`, for `n` below `2 ^ 1024`.  The product of a number of 53 binary digits and
a power of two is exact. -/
def ofNat (n : Nat) : Float :=
  let shift := n.log2 - 52
  Float.ofNat (roundHalfEven n (twoPow shift)) * powerOfTwo shift

/-- The double nearest to a whole number with a sign. -/
def ofInt : Int → Float
  | .ofNat n => ofNat n
  | .negSucc n => -(ofNat (n + 1))

end CallCommunities.Double
