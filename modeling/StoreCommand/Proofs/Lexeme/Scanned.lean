import StoreCommand.Proofs.Lexeme.Longest

/-!
# Scanning by longest match

What the tokens of a text are can be said without a scanner: blanks are skipped, the longest lexeme
of what is left becomes a token, and where no lexeme begins the text has no tokens at all.  The
relation `Scanned` says just that.  It asks which lexemes of the language a text begins with, and
never how they are found.

Scanning computes this relation (`scanned_scan`, `scan_eq_of_scanned`), and so the tokens of a
command are those that the relation gives it.
-/

namespace StoreCommand

/-! ### What a lexeme denotes -/

/-- The token that a lexeme at `position` stands for.  The case of letters counts unless they spell
    a keyword. -/
inductive Denotes (position : Nat) : Lexeme → Token → Prop where
  | string (quote : Char) (body : List Char) :
      Denotes position (.quoted quote body) ⟨.string, String.ofList body, position⟩
  | integer (digits : List Char) :
      Denotes position (.integer digits) ⟨.integer, String.ofList digits, position⟩
  | decimal (whole fraction : List Char) :
      Denotes position (.decimal whole fraction)
        ⟨.decimal, String.ofList (whole ++ '.' :: fraction), position⟩
  | comma : Denotes position .comma ⟨.comma, ",", position⟩
  | keyword {letters : List Char} (keyword : Keyword)
      (spelled : String.ofList (lowered letters) = keyword.spelling) :
      Denotes position (.word letters)
        ⟨.keyword keyword, String.ofList (lowered letters), position⟩
  | word {letters : List Char}
      (plain : ∀ keyword : Keyword, String.ofList (lowered letters) ≠ keyword.spelling) :
      Denotes position (.word letters) ⟨.word, String.ofList letters, position⟩

theorem denotes_iff {position : Nat} {lexeme : Lexeme} {token : Token} :
    Denotes position lexeme token ↔ token = lexeme.token position := by
  constructor
  · intro h
    cases h with
    | string => rfl
    | integer => rfl
    | decimal => rfl
    | comma => rfl
    | keyword keyword spelled =>
      rw [Lexeme.token, spelled, Keyword.ofSpelling?_spelling]
    | @word letters plain =>
      -- no keyword is found, since every keyword that is found is spelled by the letters
      have hnone : Keyword.ofSpelling? (String.ofList (lowered letters)) = none := by
        cases hfound : Keyword.ofSpelling? (String.ofList (lowered letters)) with
        | none => rfl
        | some keyword => exact absurd (Keyword.ofSpelling?_eq_some.1 hfound) (plain keyword)
      rw [Lexeme.token, hnone]
  · rintro rfl
    cases lexeme with
    | quoted quote body => exact .string quote body
    | integer digits => exact .integer digits
    | decimal whole fraction => exact .decimal whole fraction
    | comma => exact .comma
    | word letters =>
      rw [Lexeme.token]
      split
      · rename_i keyword hfound
        have hspelled := Keyword.ofSpelling?_eq_some.1 hfound
        rw [← hspelled]
        exact .keyword keyword hspelled
      · rename_i hnone
        apply Denotes.word
        intro keyword hspelled
        rw [hspelled, Keyword.ofSpelling?_spelling] at hnone
        exact absurd hnone (by simp)

/-- Lowering letters does not change their number. -/
theorem length_text_of_denotes {position : Nat} {letters : List Char} {token : Token}
    (h : Denotes position (.word letters) token) : token.text.length = letters.length := by
  cases h with
  | keyword => rw [String.length_ofList, length_lowered]
  | word => rw [String.length_ofList]

/-! ### The tokens of a text -/

/-- No lexeme of the language stands at the front of the text. -/
def NoLexeme (text : List Char) : Prop :=
  ∀ lexeme : Lexeme, lexeme.WellFormed → ¬ lexeme.spelling <+: text

/-- `Scanned position text result`: by longest match, the text whose first character has the offset
    `position` has the tokens, or the error, `result`. -/
inductive Scanned : Nat → List Char → Except ScanError (List Token) → Prop where
  | finish (position : Nat) : Scanned position [] (.ok [])
  | blank {position : Nat} {c : Char} {rest : List Char} {result : Except ScanError (List Token)}
      (skipped : isBlank c = true) (later : Scanned (position + 1) rest result) :
      Scanned position (c :: rest) result
  | token {position : Nat} {text rest : List Char} {lexeme : Lexeme} {token : Token}
      {tokens : List Token} (longest : lexeme.IsLongest text rest)
      (denotes : Denotes position lexeme token)
      (later : Scanned (position + lexeme.spelling.length) rest (.ok tokens)) :
      Scanned position text (.ok (token :: tokens))
  | failed {position : Nat} {text rest : List Char} {lexeme : Lexeme} {error : ScanError}
      (longest : lexeme.IsLongest text rest)
      (later : Scanned (position + lexeme.spelling.length) rest (.error error)) :
      Scanned position text (.error error)
  | unterminated {position : Nat} {c : Char} {rest : List Char} (quote : c = '"' ∨ c = '\'')
      (stuck : NoLexeme (c :: rest)) :
      Scanned position (c :: rest) (.error ⟨.unterminatedString, position⟩)
  | illegal {position : Nat} {c : Char} {rest : List Char} (kept : isBlank c = false)
      (noQuote : ¬ (c = '"' ∨ c = '\'')) (stuck : NoLexeme (c :: rest)) :
      Scanned position (c :: rest) (.error ⟨.illegalCharacter c, position⟩)

theorem scan_of_isLongest {position : Nat} {text rest : List Char} {lexeme : Lexeme}
    (h : lexeme.IsLongest text rest) :
    scan position text =
      (scan (position + lexeme.spelling.length) rest).map (lexeme.token position :: ·) := by
  have hfirst := Lexeme.first?_eq_some_iff.2 h
  cases text with
  | nil => exact absurd hfirst (by simp [Lexeme.first?])
  | cons c tail => exact scan_of_first? (Lexeme.isBlank_of_first? hfirst) hfirst position

/-- What scanning returns is what longest match gives. -/
theorem scanned_scan (position : Nat) (text : List Char) :
    Scanned position text (scan position text) := by
  induction position, text using scan.induct with
  | case1 position =>
    rw [scan_nil]
    exact .finish position
  | case2 position c rest hblank ih =>
    rw [scan_of_isBlank hblank]
    exact .blank hblank ih
  | case3 position c rest hblank hfirst =>
    rw [scan_of_first?_eq_none (by simpa using hblank) hfirst, ScanError.Cause.of]
    have hstuck : NoLexeme (c :: rest) := Lexeme.first?_eq_none_iff.1 hfirst
    -- which error it is depends on the character alone
    split
    · rename_i hquote
      exact .unterminated (isQuote_iff.1 hquote) hstuck
    · rename_i hquote
      exact .illegal (by simpa using hblank) (fun h => hquote (isQuote_iff.2 h)) hstuck
  | case4 position c rest hblank lexeme after hfirst ih =>
    have hlongest := Lexeme.first?_eq_some_iff.1 hfirst
    rw [scan_of_isLongest hlongest]
    -- an error further on takes this token with it
    cases hlater : scan (position + lexeme.spelling.length) after with
    | ok tokens =>
      rw [hlater] at ih
      exact .token hlongest (denotes_iff.2 rfl) ih
    | error error =>
      rw [hlater] at ih
      exact .failed hlongest ih

/-- What longest match gives is what scanning returns. -/
theorem scan_eq_of_scanned {position : Nat} {text : List Char}
    {result : Except ScanError (List Token)} (h : Scanned position text result) :
    scan position text = result := by
  induction h with
  | finish position => exact scan_nil position
  | blank skipped _ ih => rw [scan_of_isBlank skipped, ih]
  | token longest denotes _ ih =>
    rw [scan_of_isLongest longest, ih, denotes_iff.1 denotes, Except.map]
  | failed longest _ ih => rw [scan_of_isLongest longest, ih, Except.map]
  | @unterminated position c rest quote stuck =>
    have hquote := isQuote_iff.2 quote
    have hblank : isBlank c = false := by
      rcases quote with rfl | rfl
      · decide
      · decide
    rw [scan_of_first?_eq_none hblank (Lexeme.first?_eq_none_iff.2 stuck), ScanError.Cause.of,
      if_pos hquote]
  | illegal kept noQuote stuck =>
    rw [scan_of_first?_eq_none kept (Lexeme.first?_eq_none_iff.2 stuck), ScanError.Cause.of,
      if_neg fun hquote => noQuote (isQuote_iff.1 hquote)]

/-- The tokens of a command, or the error in place of them, are those of longest match. -/
theorem tokenize_eq_iff_scanned (text : String) (result : Except ScanError (List Token)) :
    tokenize text = result ↔ Scanned 0 text.toList result := by
  constructor
  · rintro rfl
    exact scanned_scan 0 text.toList
  · exact scan_eq_of_scanned

example : (tokenize "1.5abc,1_x").toOption.map (·.map Token.text) =
    some ["1.5", "abc", ",", "1_x"] := by decide +kernel

end StoreCommand
