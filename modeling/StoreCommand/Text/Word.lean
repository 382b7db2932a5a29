/-!
# Words

A word is a run of ASCII letters, digits and underscores.  Only these characters build words: a
letter of any other script cannot start or continue one.  Keywords are recognised whatever the case
of their letters, so a word is compared with them after its letters are lowered.
-/

namespace StoreCommand

def isWordChar (c : Char) : Bool :=
  c.isAlphanum || c == '_'

/-- The text with its ASCII letters in lower case and everything else as it is. -/
def lowered (text : List Char) : List Char :=
  text.map Char.toLower

@[simp] theorem length_lowered (text : List Char) : (lowered text).length = text.length := by
  simp [lowered]

theorem isWordChar_of_isDigit {c : Char} (h : c.isDigit = true) : isWordChar c = true := by
  simp [isWordChar, Char.isAlphanum, h]

theorem dropWhile_not_head {p : Char → Bool} {text rest : List Char} {c : Char}
    (h : text.dropWhile p = c :: rest) : p c = false := by
  have := List.head?_dropWhile_not p text
  simpa [h] using this

end StoreCommand
