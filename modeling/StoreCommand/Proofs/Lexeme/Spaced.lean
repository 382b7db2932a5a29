import Mathlib.Data.List.Forall2
import StoreCommand.Proofs.Lexeme.Scanned
import StoreCommand.Proofs.Text.Letters
import StoreCommand.Text.Quoted

/-!
# Lexemes with spaces between them

A canonical text is a row of lexemes with one space after each but the last.  Nothing can join a
lexeme across a space, so scanning such a text gives the lexemes back one by one
(`tokenize_intercalate`).

Two sorts of lexemes occur in it.  A string that does not hold both quotes is between quotes and is
read as itself (`token_between`).  A bare word is read as itself too, unless its lowered letters
spell a keyword; then this spelling is what is read (`text_token_bare`).  A row is put together from
words and strings that are pieces (`Piece.spells_row`).
-/

namespace StoreCommand

/-! ### Rows of lexemes -/

namespace Lexeme

/-- `piece` is the text of a lexeme of the language. -/
def Spells (lexeme : Lexeme) (piece : String) : Prop :=
  lexeme.WellFormed ∧ String.ofList lexeme.spelling = piece

/-- The tokens of lexemes with single spaces between them, where the first one is at `position`. -/
def tokensFrom (position : Nat) : List Lexeme → List Token
  | [] => []
  | lexeme :: others =>
    lexeme.token position :: tokensFrom (position + lexeme.spelling.length + 1) others

/-- The characters of lexemes with a space behind each of them. -/
def width : List Lexeme → Nat
  | [] => 0
  | lexeme :: others => lexeme.spelling.length + 1 + width others

theorem tokensFrom_append (front back : List Lexeme) (position : Nat) :
    tokensFrom position (front ++ back) =
      tokensFrom position front ++ tokensFrom (position + width front) back := by
  induction front generalizing position with
  | nil => rfl
  | cons lexeme others ih =>
    have hwidth : position + width (lexeme :: others) =
        position + lexeme.spelling.length + 1 + width others := by
      rw [width]
      omega
    rw [List.cons_append, tokensFrom, ih, tokensFrom, List.cons_append, hwidth]

theorem separated_space (text : List Char) : Separated (' ' :: text) := by
  intro c hc
  obtain rfl : ' ' = c := by simpa using hc
  decide

end Lexeme

theorem scan_spelling_append {lexeme : Lexeme} {rest : List Char} (h : lexeme.WellFormed)
    (hrest : Lexeme.Separated rest) (position : Nat) :
    scan position (lexeme.spelling ++ rest) =
      (scan (position + lexeme.spelling.length) rest).map (lexeme.token position :: ·) :=
  scan_of_isLongest (Lexeme.first?_eq_some_iff.1 (Lexeme.first?_spelling_append h hrest))

theorem scan_spelling_space {lexeme : Lexeme} (h : lexeme.WellFormed) (position : Nat)
    (rest : List Char) :
    scan position (lexeme.spelling ++ ' ' :: rest) =
      (scan (position + lexeme.spelling.length + 1) rest).map (lexeme.token position :: ·) := by
  rw [scan_spelling_append h (Lexeme.separated_space rest), scan_of_isBlank (by decide)]

/-- A row of lexemes in front of a text that cannot join its last one: their tokens, and behind them
    those of the text. -/
theorem scan_intercalate_append {lexemes : List Lexeme} {pieces : List String}
    (h : List.Forall₂ Lexeme.Spells lexemes pieces) (hne : pieces ≠ []) {rest : List Char}
    (hrest : Lexeme.Separated rest) (position : Nat) :
    ∃ later, scan position ((" ".intercalate pieces).toList ++ rest) =
      (scan later rest).map (Lexeme.tokensFrom position lexemes ++ ·) := by
  induction h generalizing position with
  | nil => exact absurd rfl hne
  | @cons lexeme piece others later hfirst hothers ih =>
    obtain ⟨hwf, rfl⟩ := hfirst
    -- only the last lexeme touches the text, the others have a space behind them
    cases hothers with
    | nil =>
      refine ⟨position + lexeme.spelling.length, ?_⟩
      rw [String.intercalate_singleton, String.toList_ofList, scan_spelling_append hwf hrest]
      rfl
    | @cons second other lexemes tail hsecond hothers =>
      obtain ⟨behind, hbehind⟩ := ih (by simp) (position + lexeme.spelling.length + 1)
      have hcons : (" ".intercalate (String.ofList lexeme.spelling :: other :: tail)).toList ++
          rest = lexeme.spelling ++ ' ' :: ((" ".intercalate (other :: tail)).toList ++ rest) := by
        rw [String.intercalate_cons_cons, String.toList_append, String.toList_append,
          String.toList_ofList, List.append_assoc, List.append_assoc]
        rfl
      refine ⟨behind, ?_⟩
      rw [hcons, scan_spelling_space hwf, hbehind]
      cases scan behind rest with
      | ok tokens => rfl
      | error error => rfl

theorem scan_intercalate {lexemes : List Lexeme} {pieces : List String}
    (h : List.Forall₂ Lexeme.Spells lexemes pieces) (position : Nat) :
    scan position (" ".intercalate pieces).toList = .ok (Lexeme.tokensFrom position lexemes) := by
  cases h with
  | nil => exact scan_nil position
  | cons hfirst hothers =>
    obtain ⟨later, hlater⟩ := scan_intercalate_append (.cons hfirst hothers) (by simp)
      Lexeme.separated_nil position
    rw [List.append_nil, scan_nil, Except.map, List.append_nil] at hlater
    exact hlater

/-- A row of lexemes with one more space at its end is as long as they are. -/
theorem length_intercalate {lexemes : List Lexeme} {pieces : List String}
    (h : List.Forall₂ Lexeme.Spells lexemes pieces) (hne : pieces ≠ []) :
    (" ".intercalate pieces ++ " ").length = Lexeme.width lexemes := by
  induction h with
  | nil => exact absurd rfl hne
  | @cons lexeme piece lexemes pieces hfirst hothers ih =>
    have hlength : piece.length = lexeme.spelling.length := by
      rw [← hfirst.2, String.length_ofList]
    cases hothers with
    | nil =>
      rw [String.intercalate_singleton, String.length_append, hlength]
      rfl
    | cons =>
      rw [String.intercalate_cons_cons, String.append_assoc, String.append_assoc,
        String.length_append, String.length_append, ih (by simp), hlength, Lexeme.width]
      exact (Nat.add_assoc _ _ _).symm

/-- A row of lexemes has the tokens of these lexemes. -/
theorem tokenize_intercalate {lexemes : List Lexeme} {pieces : List String}
    (h : List.Forall₂ Lexeme.Spells lexemes pieces) :
    tokenize (" ".intercalate pieces) = .ok (Lexeme.tokensFrom 0 lexemes) :=
  scan_intercalate h 0

/-- A lexeme that is a text of its own is scanned as itself. -/
theorem tokenize_of_spells {lexeme : Lexeme} {text : String} (h : lexeme.Spells text) :
    tokenize text = .ok [lexeme.token 0] := by
  have hrow := tokenize_intercalate (.cons h .nil)
  rwa [String.intercalate_singleton] at hrow

/-! ### Bare words -/

/-- What a word without quotes is read as. -/
def bareText (word : String) : String :=
  match Keyword.ofSpelling? (String.ofList (lowered word.toList)) with
  | some keyword => keyword.spelling
  | none => word

/-- The key is written with a capital letter, and in lower case it is a keyword. -/
def Folds (key : String) : Prop :=
  (∃ c ∈ key.toList, c.isUpper = true) ∧
    ∃ keyword : Keyword, String.ofList (lowered key.toList) = keyword.spelling

def loweredKey (key : String) : String :=
  String.ofList (lowered key.toList)

theorem loweredKey_eq_self_iff {key : String} :
    loweredKey key = key ↔ ∀ c ∈ key.toList, c.isUpper = false := by
  rw [← lowered_eq_self_iff, loweredKey]
  constructor
  · intro h
    rw [← String.toList_inj, String.toList_ofList] at h
    exact h
  · intro h
    rw [h, String.ofList_toList]

theorem bareText_of_folds {key : String} (h : Folds key) : bareText key = loweredKey key := by
  obtain ⟨-, keyword, hkeyword⟩ := h
  rw [bareText, hkeyword, Keyword.ofSpelling?_spelling]
  exact hkeyword.symm

theorem bareText_of_not_folds {key : String} (h : ¬ Folds key) : bareText key = key := by
  unfold bareText
  split
  · -- a keyword that is not folded is written in small letters already
    rename_i keyword hfound
    have hspelled := Keyword.ofSpelling?_eq_some.1 hfound
    have hsmall : ∀ c ∈ key.toList, c.isUpper = false := by
      intro c hc
      refine Bool.eq_false_iff.2 fun hupper => h ⟨⟨c, hc, hupper⟩, keyword, hspelled⟩
    rw [← hspelled]
    exact loweredKey_eq_self_iff.2 hsmall
  · rfl

theorem not_folds_of_forall {text : String} (h : ∀ c ∈ text.toList, c.isUpper = false) :
    ¬ Folds text := by
  rintro ⟨⟨c, hc, hupper⟩, -⟩
  exact absurd hupper (by simp [h c hc])

theorem isKeyName_bareText {key : String} (h : isKeyName key = true) :
    isKeyName (bareText key) = true := by
  by_cases hfolds : Folds key
  · rw [bareText_of_folds hfolds]
    exact isKeyName_lowered h
  · rwa [bareText_of_not_folds hfolds]

theorem isKeyName_spelling (keyword : Keyword) : isKeyName keyword.spelling = true := by
  cases keyword <;> decide

namespace Lexeme

def bare (word : String) : Lexeme := .word word.toList

theorem spells_bare {word : String} (h : isKeyName word = true) : (bare word).Spells word := by
  refine ⟨⟨isWordChar_of_isKeyName h, ?_⟩, String.ofList_toList⟩
  unfold isKeyName at h
  split at h
  · exact absurd h (by simp)
  · rename_i c rest htext
    simp only [Bool.and_eq_true] at h
    refine ⟨c, ?_, isDigit_of_isAlpha h.1⟩
    rw [htext]
    exact List.mem_cons_self

theorem token_bare_keyword (keyword : Keyword) (position : Nat) :
    (bare keyword.spelling).token position = ⟨.keyword keyword, keyword.spelling, position⟩ := by
  cases keyword <;> rfl

theorem text_token_bare (word : String) (position : Nat) :
    ((bare word).token position).text = bareText word := by
  rw [bare, token, bareText]
  cases Keyword.ofSpelling? (String.ofList (lowered word.toList)) with
  | none => exact String.ofList_toList
  | some keyword => rfl

theorem text_token_small {word : String} (h : ∀ c ∈ word.toList, c.isUpper = false)
    (position : Nat) : ((bare word).token position).text = word := by
  rw [text_token_bare, bareText_of_not_folds (not_folds_of_forall h)]

/-! ### Strings -/

def between (text : String) : Lexeme := .quoted (quoteFor text.toList) text.toList

theorem isQuote_quoteFor (text : List Char) : isQuote (quoteFor text) = true := by
  unfold quoteFor
  split
  · decide
  · decide

theorem spells_between {text : String} (h : hasBothQuotes text.toList = false) :
    (between text).Spells (StoreCommand.quoted text) :=
  ⟨⟨isQuote_quoteFor text.toList, quoteFor_notMem h⟩, rfl⟩

theorem token_between (text : String) (position : Nat) :
    (between text).token position = ⟨.string, text, position⟩ := by
  rw [between, token, String.ofList_toList]

end Lexeme

/-! ### Pieces -/

/-- A lexeme together with its text: one piece of a row. -/
structure Piece where
  lexeme : Lexeme
  text : String
  spells : lexeme.Spells text

namespace Piece

/-- A word that stands for itself.  Of a word that is written out it is checked that it is one. -/
def word (text : String) (h : isKeyName text = true := by decide) : Piece :=
  ⟨.bare text, text, Lexeme.spells_bare h⟩

def keyword (keyword : Keyword) : Piece :=
  word keyword.spelling (isKeyName_spelling keyword)

def string (text : String) (h : hasBothQuotes text.toList = false) : Piece :=
  ⟨.between text, quoted text, Lexeme.spells_between h⟩

theorem spells_row_append (row : List Piece) {lexemes : List Lexeme} {pieces : List String}
    (h : List.Forall₂ Lexeme.Spells lexemes pieces) :
    List.Forall₂ Lexeme.Spells (row.map lexeme ++ lexemes) (row.map text ++ pieces) := by
  induction row with
  | nil => exact h
  | cons piece row ih => exact .cons piece.spells ih

theorem spells_row (row : List Piece) :
    List.Forall₂ Lexeme.Spells (row.map lexeme) (row.map text) := by
  induction row with
  | nil => exact .nil
  | cons piece row ih => exact .cons piece.spells ih

end Piece

end StoreCommand
