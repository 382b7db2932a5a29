import StoreCommand.Text.Word

/-!
# Numerals

Whole numbers as text.  A numeral is a non-empty run of ASCII digits, of any length and with leading
zeros allowed; an integer may carry one sign in front.  There are no separators and no blanks.

`naturalDigits` writes the shortest numeral of a number and `natural?` reads any numeral, so that
reading gives back what was written (`natural?_naturalDigits`).
-/

namespace StoreCommand

/-! ### Natural numbers -/

/-- The number that a run of digits denotes; the empty run denotes zero. -/
def digitsValue (digits : List Char) : Nat :=
  Nat.ofDigitChars 10 digits 0

def naturalDigits (n : Nat) : List Char :=
  Nat.toDigits 10 n

def natural? (text : List Char) : Option Nat :=
  if text ≠ [] ∧ text.all Char.isDigit then some (digitsValue text) else none

theorem isDigit_of_mem_naturalDigits {n : Nat} {c : Char} (h : c ∈ naturalDigits n) :
    c.isDigit = true :=
  Nat.isDigit_of_mem_toDigits (by decide) (by decide) h

@[simp] theorem digitsValue_naturalDigits (n : Nat) : digitsValue (naturalDigits n) = n :=
  Nat.ofDigitChars_toDigits (by decide) (by decide)

@[simp] theorem natural?_naturalDigits (n : Nat) : natural? (naturalDigits n) = some n := by
  have hall : (naturalDigits n).all Char.isDigit = true :=
    List.all_eq_true.2 fun _ hc => isDigit_of_mem_naturalDigits hc
  unfold natural?
  rw [if_pos ⟨Nat.toDigits_ne_nil, hall⟩, digitsValue_naturalDigits]

/-! ### Signs -/

/-- Whether a text begins with a minus sign, and the text without its sign. -/
def splitSign : List Char → Bool × List Char
  | '-' :: rest => (true, rest)
  | '+' :: rest => (false, rest)
  | text => (false, text)

def integer? (text : List Char) : Option Int :=
  (natural? (splitSign text).2).map fun n => if (splitSign text).1 then -(n : Int) else n

/-- The numeral of an integer: a minus sign if it is negative, and the digits of its size. -/
def integerDigits (n : Int) : List Char :=
  if n < 0 then '-' :: naturalDigits n.natAbs else naturalDigits n.natAbs

/-- The signed 64-bit integer that a text denotes, if the text is a signed numeral and its number is
    in range. -/
def int64? (text : List Char) : Option Int64 :=
  (integer? text).bind fun n =>
    if Int64.minValue.toInt ≤ n ∧ n ≤ Int64.maxValue.toInt then some (Int64.ofInt n) else none

end StoreCommand
