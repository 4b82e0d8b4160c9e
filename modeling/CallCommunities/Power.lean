/-!
# Power — powers of two and ten

The two bases in which limits, floats and decimals are written.
-/

namespace CallCommunities

/-- Two to the power of `n`. -/
def twoPow (n : Nat) : Nat := Nat.pow 2 n

/-- Ten to the power of `n`. -/
def tenPow (n : Nat) : Nat := Nat.pow 10 n

end CallCommunities
