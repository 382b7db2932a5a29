import StoreCommand.Proofs.Binary64.ReadBack
import StoreCommand.Proofs.Lexeme.Origin

/-!
# Values that have a text

A value is expressible if some text is read as it.  There is no sign in the language, so an integer
must not be negative and a number must not have its sign set; a string must do without one of the
two quotes.  Every token of a text is read as an expressible value (`expressible_ofToken`), and
every expressible value is written as one lexeme that is read as this value again
(`exists_lexeme`).
-/

namespace StoreCommand

namespace Value

/-- Some text is read as the value. -/
def Expressible : Value → Prop
  | string text => hasBothQuotes text.toList = false
  | int number => 0 ≤ number.toInt
  | float number => ∃ m, number = .number false m
  | bool _ => True

/-! ### Reading -/

theorem ofNumberText_integer {digits : List Char} (h : IsNumeral digits) :
    ∃ m, ofNumberText (String.ofList digits) = float (.number false m) := by
  refine ⟨Binary64.nearest (digitsValue digits) 1, ?_⟩
  rw [ofNumberText, String.toList_ofList, Binary64.ofText?_integer h]

theorem ofNumberText_decimal {whole fraction : List Char} (hwhole : IsNumeral whole)
    (hfraction : IsNumeral fraction) :
    ∃ m, ofNumberText (String.ofList (whole ++ '.' :: fraction)) = float (.number false m) := by
  refine ⟨Binary64.nearest (digitsValue (whole ++ fraction)) (Nat.pow 10 fraction.length), ?_⟩
  rw [ofNumberText, String.toList_ofList, Binary64.ofText?_decimal hwhole hfraction]

theorem ofToken_of_kind {token : Token} (hinteger : token.kind ≠ .integer)
    (hdecimal : token.kind ≠ .decimal) :
    (∃ flag, ofToken token = bool flag) ∨ ofToken token = string token.text := by
  unfold ofToken
  split
  · rename_i hkind
    exact absurd hkind hinteger
  · rename_i hkind
    exact absurd hkind hdecimal
  · exact Or.inl ⟨true, rfl⟩
  · exact Or.inl ⟨false, rfl⟩
  · exact Or.inr rfl

theorem expressible_ofToken_of_kind {token : Token} (h : token.Scannable)
    (hinteger : token.kind ≠ .integer) (hdecimal : token.kind ≠ .decimal) :
    (ofToken token).Expressible := by
  rcases ofToken_of_kind hinteger hdecimal with ⟨flag, hbool⟩ | hstring
  · rw [hbool]
    trivial
  · rw [hstring]
    exact hasBothQuotes_of_scannable h

/-- What a token of a text is read as is expressible. -/
theorem expressible_ofToken {token : Token} (h : token.Scannable) :
    (ofToken token).Expressible := by
  obtain ⟨lexeme, position, hwf, rfl⟩ := id h
  cases lexeme with
  | quoted => exact expressible_ofToken_of_kind h (by simp [Lexeme.token]) (by simp [Lexeme.token])
  | integer digits =>
    simp only [Lexeme.token, ofToken, String.toList_ofList]
    cases hnumber : int64? digits with
    | none =>
      -- too large for 64 bits, so the digits are read as a number
      rcases ofNumberText_integer hwf with ⟨m, hfloat⟩
      rw [hfloat]
      exact ⟨m, rfl⟩
    | some number =>
      have hvalue := int64?_of_isNumeral hwf hnumber
      rw [Expressible, hvalue]
      exact Int.natCast_nonneg _
  | decimal whole fraction =>
    rcases ofNumberText_decimal hwf.1 hwf.2 with ⟨m, hfloat⟩
    simp only [Lexeme.token, ofToken]
    rw [hfloat]
    exact ⟨m, rfl⟩
  | word letters =>
    refine expressible_ofToken_of_kind h ?_ ?_
    · rw [Lexeme.token]
      split <;> simp
    · rw [Lexeme.token]
      split <;> simp
  | comma => exact expressible_ofToken_of_kind h (by simp [Lexeme.token]) (by simp [Lexeme.token])

/-! ### Writing -/

theorem integerDigits_of_nonneg {n : Int} (h : 0 ≤ n) :
    integerDigits n = naturalDigits n.natAbs := by
  rw [integerDigits, if_neg (Int.not_lt.2 h)]

/-- An expressible value is written as one lexeme and read back from it. -/
theorem exists_lexeme {value : Value} (h : value.Expressible) :
    ∃ lexeme : Lexeme, lexeme.Spells value.literal ∧
      ∀ position, ofToken (lexeme.token position) = value := by
  cases value with
  | string text =>
    refine ⟨.between text, Lexeme.spells_between h, ?_⟩
    intro position
    rw [Lexeme.token_between]
    rfl
  | int number =>
    refine ⟨.integer (integerDigits number.toInt), ⟨?_, rfl⟩, ?_⟩
    · rw [integerDigits_of_nonneg h]
      exact isNumeral_naturalDigits _
    · intro position
      simp only [Lexeme.token, ofToken, String.toList_ofList, int64?_integerDigits]
  | float number =>
    rcases h with ⟨m, rfl⟩
    rcases Binary64.exists_literal m with ⟨whole, fraction, hliteral, hwhole, hfraction, hread⟩
    refine ⟨.decimal whole fraction, ⟨⟨hwhole, hfraction⟩, ?_⟩, ?_⟩
    · rw [literal, hliteral]
      rfl
    · intro position
      simp only [Lexeme.token, ofToken, ofNumberText, String.toList_ofList, hread]
  | bool flag =>
    cases flag with
    | true =>
      refine ⟨.bare Keyword.trueWord.spelling, Lexeme.spells_bare (by decide), ?_⟩
      intro position
      rw [Lexeme.token_bare_keyword]
      rfl
    | false =>
      refine ⟨.bare Keyword.falseWord.spelling, Lexeme.spells_bare (by decide), ?_⟩
      intro position
      rw [Lexeme.token_bare_keyword]
      rfl

end Value

end StoreCommand
