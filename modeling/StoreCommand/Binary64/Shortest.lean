import StoreCommand.Binary64.Nearest
import StoreCommand.Text.Numeral

/-!
# The shortest decimal of a number

A finite magnitude is written with the fewest digits that read back as the same magnitude.  In units
of the 1074th decimal place every magnitude is a natural number, so the search runs over the grids
of multiples of powers of ten, the coarsest first.  On each grid only the two neighbours of the
exact value can matter; the first grid on which one of them reads back gives the digits.  If both
read back, the nearer one is taken, and the upper one of two that are equally near.

The text is positional: the digits are never followed by an exponent, whatever its size.
-/

namespace StoreCommand

namespace Binary64

/-! ### Grids -/

/-- A magnitude in units of the decimal place with the number `unitExponent`. -/
def Magnitude.places (m : Magnitude) : Nat :=
  m.units * Nat.pow 5 unitExponent

/-- Whether a decimal, given in the units of `places`, is read as the magnitude `m`. -/
def readsBack (m : Magnitude) (decimal : Nat) : Bool :=
  decide (nearest decimal (Nat.pow 10 unitExponent) = m)

/-- The one of the neighbours `low` and `low + 1` that reads back; if both do, the nearer one. -/
def neighbour? (low : Nat) (lowReads highReads lowIsNearer : Bool) : Option Nat :=
  match lowReads, highReads with
  | true, true => some (if lowIsNearer then low else low + 1)
  | true, false => some low
  | false, true => some (low + 1)
  | false, false => none

/-- The multiple of `10 ^ grid`, divided by `10 ^ grid`, that reads back as `m` and is nearest to
    it, if there is one. -/
def onGrid? (m : Magnitude) (grid : Nat) : Option Nat :=
  let step := Nat.pow 10 grid
  let low := m.places / step
  neighbour? low (readsBack m (low * step)) (readsBack m ((low + 1) * step))
    (decide (2 * m.places < (2 * low + 1) * step))

/-- The digits on the coarsest grid up to `grid` on which some decimal reads back, with that
    grid. -/
def coarsest (m : Magnitude) : Nat → Nat × Nat
  | 0 => (m.places, 0)
  | grid + 1 =>
    ((onGrid? m (grid + 1)).map fun digits => (digits, grid + 1)).getD (coarsest m grid)

/-- The number of a grid whose step is greater than the decimal.  The 28th power of ten is a little
    greater than the 93rd power of two, so counting binary digits gives the place. -/
def gridAbove (decimal : Nat) : Nat :=
  (decimal.log2 + 1) * 28 / 93 + 1

def shortest (m : Magnitude) : Nat × Nat :=
  coarsest m (gridAbove m.places)

/-! ### Text -/

/-- Digits in front of which zeros bring the length to `width`. -/
def padded (width : Nat) (digits : List Char) : List Char :=
  List.replicate (width - digits.length) '0' ++ digits

/-- The positional text of `digits` divided by `10 ^ count`; a fraction of zero is left out. -/
def positional (digits count : Nat) : List Char :=
  let whole := naturalDigits (digits / Nat.pow 10 count)
  let fraction := digits % Nat.pow 10 count
  if fraction = 0 then whole else whole ++ '.' :: padded count (naturalDigits fraction)

/-- The text of digits on a grid: zeros follow them, or some of them stand behind the dot. -/
def gridText (digits grid : Nat) : List Char :=
  if unitExponent ≤ grid then naturalDigits (digits * Nat.pow 10 (grid - unitExponent))
  else positional digits (unitExponent - grid)

def Magnitude.text (m : Magnitude) : List Char :=
  gridText (shortest m).1 (shortest m).2

/-- The text of a number.  The sign of zero is written, that of not-a-number is not. -/
def text : Binary64 → List Char
  | nan => "NaN".toList
  | number negative m =>
    (if negative then ['-'] else []) ++ (if m = Magnitude.infinite then "inf".toList else m.text)

end Binary64

end StoreCommand
