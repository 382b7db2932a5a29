import StoreCommand.Token.Lexeme

/-!
# From text to tokens

Scanning skips blanks and takes one lexeme after the other, keeping count of the characters passed.
It stops at the first place where a character is neither a blank nor the start of a lexeme; then no
token is returned at all.
-/

namespace StoreCommand

namespace ScanError

/-- Why no lexeme begins at some character: a quote is never closed, or no lexeme begins like
    this. -/
inductive Cause where
  | unterminatedString
  | illegalCharacter (character : Char)
  deriving DecidableEq, Repr

def Cause.message : Cause → String
  | unterminatedString => "unterminated string"
  | illegalCharacter character => s!"illegal character '{character}'"

/-- Only a quote can begin a lexeme without finishing it. -/
def Cause.of (c : Char) : Cause :=
  if isQuote c then .unterminatedString else .illegalCharacter c

end ScanError

/-- A text that is not a sequence of lexemes, with the offset of the offending character. -/
structure ScanError where
  cause : ScanError.Cause
  position : Nat
  deriving DecidableEq, Repr

def ScanError.message (error : ScanError) : String :=
  s!"{error.cause.message} at position {error.position}"

/-- The tokens of a text whose first character has the offset `position`. -/
def scan (position : Nat) (text : List Char) : Except ScanError (List Token) :=
  match text with
  | [] => .ok []
  | c :: rest =>
    if isBlank c then scan (position + 1) rest
    else
      match _h : Lexeme.first? (c :: rest) with
      | none => .error ⟨.of c, position⟩
      | some (lexeme, after) =>
        (scan (position + lexeme.spelling.length) after).map (lexeme.token position :: ·)
termination_by text.length
decreasing_by
  · simp
  · exact Lexeme.length_lt_of_first? _h  -- a lexeme has a character at least

theorem scan_nil (position : Nat) : scan position [] = .ok [] := by
  rw [scan]

theorem scan_of_isBlank {c : Char} (h : isBlank c = true) (position : Nat) (rest : List Char) :
    scan position (c :: rest) = scan (position + 1) rest := by
  rw [scan, if_pos h]

theorem scan_of_first? {c : Char} {rest after : List Char} {lexeme : Lexeme}
    (hblank : isBlank c = false) (h : Lexeme.first? (c :: rest) = some (lexeme, after))
    (position : Nat) :
    scan position (c :: rest) =
      (scan (position + lexeme.spelling.length) after).map (lexeme.token position :: ·) := by
  rw [scan, if_neg (by simp [hblank])]
  split
  · simp_all
  · simp_all

theorem scan_of_first?_eq_none {c : Char} {rest : List Char} (hblank : isBlank c = false)
    (h : Lexeme.first? (c :: rest) = none) (position : Nat) :
    scan position (c :: rest) = .error ⟨.of c, position⟩ := by
  rw [scan, if_neg (by simp [hblank])]
  split
  · rfl
  · simp_all

def tokenize (text : String) : Except ScanError (List Token) :=
  scan 0 text.toList

end StoreCommand
