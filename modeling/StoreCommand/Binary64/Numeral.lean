import StoreCommand.Binary64.Nearest
import StoreCommand.Text.Numeral

/-!
# Reading a number

The text of a binary64 number is an optional sign and then either a decimal or one of the words
`inf`, `infinity` and `nan` in any case.  A decimal has digits on at least one side of an optional
dot and may end with an exponent.  It denotes a coefficient times a power of ten, and is read as the
number nearest to that, however many digits it has.
-/

namespace StoreCommand

/-! ### Decimals -/

/-- The non-negative number `coefficient * 10 ^ exponent`. -/
structure Decimal where
  coefficient : Nat
  exponent : Int
  deriving DecidableEq, Repr

namespace Decimal

/-- The exponent that ends a decimal: nothing, or a letter `e` and a signed numeral. -/
def exponent? : List Char → Option Int
  | [] => some 0
  | c :: rest => if c = 'e' ∨ c = 'E' then integer? rest else none

/-- The decimal with the digits `whole` before its dot and `fraction` behind it, if there are
    digits at all and `rest` is an exponent. -/
def ofParts? (whole fraction rest : List Char) : Option Decimal :=
  if whole ++ fraction = [] then none
  else (exponent? rest).map fun e => ⟨digitsValue (whole ++ fraction), e - fraction.length⟩

def ofText? (text : List Char) : Option Decimal :=
  match text.dropWhile Char.isDigit with
  | '.' :: rest =>
    ofParts? (text.takeWhile Char.isDigit) (rest.takeWhile Char.isDigit)
      (rest.dropWhile Char.isDigit)
  | rest => ofParts? (text.takeWhile Char.isDigit) [] rest

/-- The magnitude nearest to a decimal.  A positive decimal with an exponent of 400 or more is
    infinite, and one below `10 ^ (-400)` is zero, so larger powers of ten are not formed. -/
def nearest (d : Decimal) : Binary64.Magnitude :=
  match d.exponent with
  | .ofNat e => Binary64.nearest (d.coefficient * Nat.pow 10 (min e 400)) 1
  | .negSucc e =>
    Binary64.nearest d.coefficient (Nat.pow 10 (min (e + 1) (d.coefficient.log2 + 401)))

end Decimal

/-! ### Numbers -/

namespace Binary64

def ofText? (text : List Char) : Option Binary64 :=
  let (negative, rest) := splitSign text
  if lowered rest = "inf".toList ∨ lowered rest = "infinity".toList then
    some (number negative Magnitude.infinite)
  else if lowered rest = "nan".toList then some nan
  else (Decimal.ofText? rest).map fun d => number negative d.nearest

end Binary64

end StoreCommand
