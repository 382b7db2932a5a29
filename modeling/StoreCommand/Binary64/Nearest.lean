import StoreCommand.Binary64.Basic

/-!
# Rounding to the nearest number

A ratio of natural numbers is rounded to the binary64 magnitude nearest to it; of two that are
equally near, the one of even rank is taken.  The greatest rank not above the ratio is found from
the binary length of its whole part, and one comparison with the midpoint to the next rank decides.
Infinity takes part as the power of two after the last finite value, so everything from the midpoint
before it onwards rounds to infinity.
-/

namespace StoreCommand

namespace Binary64

/-- The greatest rank whose value is at most `units` units: the leading 53 binary digits, with the
    number of digits that follow them as the binade. -/
def floorRank (units : Nat) : Nat :=
  (units.log2 - 52) * binadeSize + units / Nat.pow 2 (units.log2 - 52)

/-- Whether `numerator / denominator`, at least the value of `rank`, is rounded up to the next rank:
    it lies beyond the midpoint, or on it while `rank` is odd. -/
def roundsUp (numerator denominator rank : Nat) : Bool :=
  let ratio := 2 * (numerator * Nat.pow 2 unitExponent)
  let midpoint := (unitsOfRank rank + unitsOfRank (rank + 1)) * denominator
  decide (midpoint < ratio) || (decide (midpoint = ratio) && decide (rank % 2 = 1))

/-- The magnitude nearest to `numerator / denominator`, ties going to the even rank. -/
def nearest (numerator denominator : Nat) : Magnitude :=
  let low := floorRank (numerator * Nat.pow 2 unitExponent / denominator)
  if h : low < infiniteRank then
    if roundsUp numerator denominator low then ⟨low + 1, h⟩ else ⟨low, Nat.le_of_lt h⟩
  else Magnitude.infinite

end Binary64

end StoreCommand
