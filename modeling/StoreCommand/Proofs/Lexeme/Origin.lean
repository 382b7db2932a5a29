import StoreCommand.Proofs.Lexeme.Spaced

/-!
# Where tokens come from

A reading takes any tokens, but a text has only some of them: each comes from a lexeme of the
language.  So the tokens of a text keep what lexemes have.  No token holds both quotes in its text
(`hasBothQuotes_of_scannable`), and a text with a capital letter that is a keyword in lower case can
only come from a string, because a word would have become the keyword (`kind_of_folds`).
-/

namespace StoreCommand

/-- The token of some lexeme of the language. -/
def Token.Scannable (token : Token) : Prop :=
  ∃ lexeme position, Lexeme.WellFormed lexeme ∧ token = lexeme.token position

theorem scannable_of_scanned {position : Nat} {text : List Char}
    {result : Except ScanError (List Token)} (h : Scanned position text result) :
    ∀ tokens, result = .ok tokens → ∀ token ∈ tokens, token.Scannable := by
  induction h with
  | finish =>
    intro tokens hresult
    obtain rfl := Except.ok.inj hresult
    simp
  | blank _ _ ih => exact ih
  | @token position text rest lexeme first others longest denotes _ ih =>
    intro tokens hresult token hmem
    obtain rfl := Except.ok.inj hresult
    rcases List.mem_cons.1 hmem with rfl | hmem
    · exact ⟨lexeme, position, longest.wellFormed, denotes_iff.1 denotes⟩
    · exact ih others rfl token hmem
  | failed =>
    intro tokens hresult
    exact absurd hresult (by simp)
  | unterminated =>
    intro tokens hresult
    exact absurd hresult (by simp)
  | illegal =>
    intro tokens hresult
    exact absurd hresult (by simp)

theorem scannable_of_tokenize {text : String} {tokens : List Token}
    (h : tokenize text = .ok tokens) : ∀ token ∈ tokens, token.Scannable :=
  scannable_of_scanned (scanned_scan 0 text.toList) tokens h

/-! ### Quotes -/

theorem mem_decimal {whole fraction : List Char} (h : (Lexeme.decimal whole fraction).WellFormed)
    {c : Char} (hc : c ∈ whole ++ '.' :: fraction) : c.isDigit = true ∨ c = '.' := by
  rcases List.mem_append.1 hc with hwhole | htail
  · exact Or.inl (h.1.2 c hwhole)
  · rcases List.mem_cons.1 htail with hdot | hfraction
    · exact Or.inr hdot
    · exact Or.inl (h.2.2 c hfraction)

theorem mem_spelling {keyword : Keyword} {c : Char} (hc : c ∈ keyword.spelling.toList) :
    isWordChar c = true ∧ c.isUpper = false := by
  have hall : keyword.spelling.toList.all (fun c => isWordChar c && !c.isUpper) = true := by
    cases keyword <;> decide +kernel
  simpa using List.all_eq_true.1 hall c hc

theorem hasBothQuotes_of_forall {text : List Char} (h : ∀ c ∈ text, isQuote c = false) :
    hasBothQuotes text = false := by
  apply Bool.eq_false_iff.2
  intro hboth
  have hquote := h '"' (hasBothQuotes_iff.1 hboth).1
  exact absurd hquote (by decide)

theorem isQuote_of_isDigit {c : Char} (h : c.isDigit = true) : isQuote c = false :=
  isQuote_of_isWordChar (isWordChar_of_isDigit h)

/-- A string ends at the first quote of its own sort, and nothing else holds quotes. -/
theorem hasBothQuotes_of_scannable {token : Token} (h : token.Scannable) :
    hasBothQuotes token.text.toList = false := by
  rcases h with ⟨lexeme, position, hwf, rfl⟩
  cases lexeme with
  | quoted quote body =>
    rw [Lexeme.token, String.toList_ofList]
    apply Bool.eq_false_iff.2
    intro hboth
    rcases hasBothQuotes_iff.1 hboth with ⟨hdouble, hsingle⟩
    -- one of the two is the quote around the string
    rcases isQuote_iff.1 hwf.1 with rfl | rfl
    · exact hwf.2 hdouble
    · exact hwf.2 hsingle
  | integer digits =>
    rw [Lexeme.token, String.toList_ofList]
    exact hasBothQuotes_of_forall fun c hc => isQuote_of_isDigit (hwf.2 c hc)
  | decimal whole fraction =>
    rw [Lexeme.token, String.toList_ofList]
    apply hasBothQuotes_of_forall
    intro c hc
    rcases mem_decimal hwf hc with hdigit | rfl
    · exact isQuote_of_isDigit hdigit
    · decide
  | word letters =>
    rw [Lexeme.token]
    split
    · exact hasBothQuotes_of_forall fun c hc => isQuote_of_isWordChar (mem_spelling hc).1
    · rw [String.toList_ofList]
      exact hasBothQuotes_of_forall fun c hc => isQuote_of_isWordChar (hwf.1.2 c hc)
  | comma =>
    have hcomma : hasBothQuotes ",".toList = false := by decide +kernel
    exact hcomma

/-! ### Capital letters -/

/-- A capital letter in a keyword survives only between quotes. -/
theorem kind_of_folds {token : Token} (h : token.Scannable) (hfolds : Folds token.text) :
    token.kind = .string := by
  rcases h with ⟨lexeme, position, hwf, rfl⟩
  cases lexeme with
  | quoted => rfl
  | integer digits =>
    apply absurd hfolds
    apply not_folds_of_forall
    intro c hc
    rw [Lexeme.token, String.toList_ofList] at hc
    exact isUpper_of_isDigit (hwf.2 c hc)
  | decimal whole fraction =>
    apply absurd hfolds
    apply not_folds_of_forall
    intro c hc
    rw [Lexeme.token, String.toList_ofList] at hc
    rcases mem_decimal hwf hc with hdigit | rfl
    · exact isUpper_of_isDigit hdigit
    · decide
  | word letters =>
    rw [Lexeme.token] at hfolds
    split at hfolds
    · exact absurd hfolds (not_folds_of_forall fun c hc => (mem_spelling hc).2)
    · -- a bare word like this would have become the keyword
      rename_i hnone
      rcases hfolds with ⟨-, keyword, hkeyword⟩
      rw [String.toList_ofList] at hkeyword
      rw [hkeyword, Keyword.ofSpelling?_spelling] at hnone
      exact absurd hnone (by simp)
  | comma =>
    have hcomma : ∀ c ∈ ",".toList, c.isUpper = false := by simp
    exact absurd hfolds (not_folds_of_forall hcomma)

end StoreCommand
