/-!
# Blanks

Between two tokens, and around the names of a permission list, the language skips blanks: the
characters that have the Unicode property `White_Space`.  The property is a short table of code
point ranges, and trimming removes the longest blank run at either end.
-/

namespace StoreCommand

/-! ### The class -/

/-- The code points of the property `White_Space`, as inclusive ranges in increasing order. -/
def blankRanges : List (Nat × Nat) :=
  [(0x0009, 0x000D), (0x0020, 0x0020), (0x0085, 0x0085), (0x00A0, 0x00A0), (0x1680, 0x1680),
   (0x2000, 0x200A), (0x2028, 0x2029), (0x202F, 0x202F), (0x205F, 0x205F), (0x3000, 0x3000)]

def isBlank (c : Char) : Bool :=
  blankRanges.any fun range => decide (range.1 ≤ c.toNat) && decide (c.toNat ≤ range.2)

/-! ### Trimming -/

def trimBlanks (text : List Char) : List Char :=
  ((text.dropWhile isBlank).reverse.dropWhile isBlank).reverse

end StoreCommand
