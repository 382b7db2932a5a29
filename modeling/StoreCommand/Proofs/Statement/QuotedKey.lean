import StoreCommand.Proofs.Statement.RoundTrip

/-!
# Texts of statements

Which statements have a text at all?  The canonical text answers this for all but the statements
with a key that loses its capital letters when it is written as a bare word.  A key may as well be
written between quotes, where it keeps every letter, and then each expressible statement is read
back (`ofText_quotedKey`).  So expressible is the same as having a text (`exists_text_iff`).
-/

namespace StoreCommand

namespace Statement

/-- The pieces of a statement with its key, if it has one, between quotes. -/
def quotedKeyPieces : Statement → List String
  | put key value => ["put", value.literal, "in", quoted key]
  | get key => ["get", quoted key]
  | delete key => ["delete", quoted key]
  | statement => statement.pieces

def quotedKeyText (statement : Statement) : String :=
  " ".intercalate statement.quotedKeyPieces

theorem quotedKeyText_of_key?_eq_none {statement : Statement} (h : statement.key? = none) :
    statement.quotedKeyText = statement.canonical := by
  cases statement with
  | put | get | delete => exact absurd h (by simp [key?])
  | _ => rfl

end Statement

theorem hasBothQuotes_of_isKeyName {key : String} (h : isKeyName key = true) :
    hasBothQuotes key.toList = false :=
  hasBothQuotes_of_forall fun c hc => isQuote_of_isWordChar ((isWordChar_of_isKeyName h).2 c hc)

theorem ofText_quotedKey_put {options : Options} {key : String} {value : Value}
    (hkey : isKeyName key = true) (hvalue : value.Expressible) :
    Statement.ofText options (Statement.put key value).quotedKeyText = .ok (.put key value) := by
  rcases Value.exists_lexeme hvalue with ⟨lexeme, hspells, hread⟩
  have hpieces : List.Forall₂ Lexeme.Spells [.bare "put", lexeme, .bare "in", .between key]
      (Statement.put key value).quotedKeyPieces :=
    Piece.spells_row [.word "put", ⟨lexeme, _, hspells⟩, .word "in",
      .string key (hasBothQuotes_of_isKeyName hkey)]
  have hform : Form options
      (Lexeme.tokensFrom 0 [.bare "put", lexeme, .bare "in", .between key]) _ :=
    .put (kind_token_bare .put _) (Lexeme.text_token_small (by simp) _)
      (by rwa [text_token_between])
  rw [text_token_between, hread] at hform
  exact ofText_intercalate hpieces hform

/-- What is done with the value of a key is read from the keyword and the key. -/
theorem ofText_quotedKey_keyed (keyword : Keyword) {options : Options} {key : String}
    {ofKey : String → Statement}
    (hform : ∀ first last : Token, first.kind = .keyword keyword → last.text ≠ "user" →
      isKeyName last.text = true → Form options [first, last] (ofKey last.text))
    (hkey : isKeyName key = true) (huser : key ≠ "user") :
    Statement.ofText options (" ".intercalate [keyword.spelling, quoted key]) =
      .ok (ofKey key) := by
  have hpieces : List.Forall₂ Lexeme.Spells [.bare keyword.spelling, .between key]
      [keyword.spelling, quoted key] :=
    Piece.spells_row [.keyword keyword, .string key (hasBothQuotes_of_isKeyName hkey)]
  have hsentence : Form options
      (Lexeme.tokensFrom 0 [.bare keyword.spelling, .between key]) _ :=
    hform _ _ (kind_token_bare keyword _) (by rwa [text_token_between])
      (by rwa [text_token_between])
  rw [text_token_between] at hsentence
  exact ofText_intercalate hpieces hsentence

/-- Every expressible statement is read back if its key is quoted. -/
theorem ofText_quotedKey {options : Options} {statement : Statement}
    (h : statement.Expressible options.vocabulary) :
    Statement.ofText options statement.quotedKeyText = .ok statement := by
  cases statement with
  | put key value => exact ofText_quotedKey_put h.1 h.2
  | get key =>
    apply ofText_quotedKey_keyed .get _ h.1 h.2
    exact fun first last hfirst huser hkey => .get hfirst huser hkey
  | delete key =>
    apply ofText_quotedKey_keyed .delete _ h.1 h.2
    exact fun first last hfirst huser hkey => .delete hfirst huser hkey
  -- a statement without a key has its canonical text
  | _ =>
    rw [Statement.quotedKeyText_of_key?_eq_none rfl]
    exact ofText_of_expressible h (by simp [Statement.KeyFolds, Statement.key?])

/-- The statements that commands can say are the expressible ones, whether the options are strict or
    not.  A permission list is expressible if it is `none` alone or has known names of entries other
    than `none`, and if its names do without one of the two quotes. -/
theorem exists_text_iff (options : Options) (statement : Statement) :
    ((∃ text, Statement.ofText options text = .ok statement) ↔
      statement.Expressible options.vocabulary) ∧
    ∀ names, PermissionList.Readable options.vocabulary names ↔
      (names = [nonePermission] ∨ (nonePermission ∉ names ∧
        ∀ name ∈ names, options.vocabulary.knows name = true ∧ PermissionList.IsEntry name)) ∧
      ¬ ((∃ name ∈ names, '"' ∈ name.toList) ∧ ∃ name ∈ names, '\'' ∈ name.toList) := by
  refine ⟨⟨?_, fun h => ⟨statement.quotedKeyText, ofText_quotedKey h⟩⟩, ?_⟩
  · rintro ⟨text, htext⟩
    exact expressible_of_ofText htext
  · exact fun names => PermissionList.readable_iff

end StoreCommand
