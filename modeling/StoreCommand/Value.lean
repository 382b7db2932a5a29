import StoreCommand.Binary64.Numeral
import StoreCommand.Token.Basic

/-!
# Values

What a key can hold: a string, a signed 64-bit integer, a binary64 number or a truth value.  A token
becomes a value by its kind.  An integer too large for 64 bits becomes a number, and a text that is
no number at all stays a string.
-/

namespace StoreCommand

inductive Value where
  | string (text : String)
  | int (number : Int64)
  | float (number : Binary64)
  | bool (flag : Bool)
  deriving DecidableEq, Repr

namespace Value

def ofNumberText (text : String) : Value :=
  match Binary64.ofText? text.toList with
  | some number => float number
  | none => string text

def ofToken (token : Token) : Value :=
  match token.kind with
  | .integer =>
    match int64? token.text.toList with
    | some number => int number
    | none => ofNumberText token.text
  | .decimal => ofNumberText token.text
  | .keyword .trueWord => bool true
  | .keyword .falseWord => bool false
  | _ => string token.text

/-- Equality of values as the language compares them: numbers by numerical equality, and an integer
    is never equal to a number. -/
def same : Value → Value → Bool
  | string a, string b => a == b
  | int a, int b => a == b
  | float a, float b => a.same b
  | bool a, bool b => a == b
  | _, _ => false

end Value

end StoreCommand
