import StoreCommand.Proofs.Lexeme.Locality
import StoreCommand.Proofs.Lexeme.Origin
import StoreCommand.Proofs.Text.Numerals

/-!
# The tokens that texts have

Which rows of kinds and texts are the outline of a text?  It is enough to look at one token at a
time: every kind allows certain texts (`Token.Kind.Allows`), and any row of tokens with such texts
can be written down so that scanning gives it back (`outline_intercalate_of_written`).

Most tokens are written as their own text.  Only a string needs quotes around it, of a sort that it
does not hold itself.
-/

namespace StoreCommand

/-! ### The texts of a kind -/

/-- The texts that a token of this kind can have.  A keyword has its own spelling, and a word is not
    all digits and does not spell a keyword in any case of its letters. -/
def Token.Kind.Allows : Token.Kind → String → Prop
  | .string, text => hasBothQuotes text.toList = false
  | .integer, text => IsNumeral text.toList
  | .decimal, text =>
    ∃ whole fraction, text.toList = whole ++ '.' :: fraction ∧ IsNumeral whole ∧ IsNumeral fraction
  | .word, text =>
    (text.toList ≠ [] ∧ ∀ c ∈ text.toList, isWordChar c = true) ∧
      (∃ c ∈ text.toList, c.isDigit = false) ∧
      ∀ keyword : Keyword, String.ofList (lowered text.toList) ≠ keyword.spelling
  | .comma, text => text = ","
  | .keyword reserved, text => text = reserved.spelling

theorem allows_of_denotes {position : Nat} {lexeme : Lexeme} {token : Token}
    (h : Denotes position lexeme token) (hwell : lexeme.WellFormed) :
    token.kind.Allows token.text := by
  cases h with
  | string quote body =>
    have hscannable : Token.Scannable ⟨.string, String.ofList body, position⟩ :=
      ⟨.quoted quote body, position, hwell, rfl⟩
    exact hasBothQuotes_of_scannable hscannable
  | integer digits =>
    rw [Token.Kind.Allows, String.toList_ofList]
    exact hwell
  | decimal whole fraction => exact ⟨whole, fraction, String.toList_ofList, hwell⟩
  | comma => rfl
  | keyword keyword spelled => exact spelled  -- its text is lowered already
  | word plain =>
    rw [Token.Kind.Allows, String.toList_ofList]
    exact ⟨hwell.1, hwell.2, plain⟩

theorem allows_of_scannable {token : Token} (h : token.Scannable) :
    token.kind.Allows token.text := by
  rcases h with ⟨lexeme, position, hwell, htoken⟩
  exact allows_of_denotes (denotes_iff.2 htoken) hwell

/-! ### Writing tokens down -/

/-- `Written content piece`: the piece is a string between two quotes of a sort that it does not
    hold, or the text of any other token as it stands. -/
inductive Written : Token.Kind × String → String → Prop where
  | string {text : String} {quote : Char} (sort : isQuote quote = true)
      (free : quote ∉ text.toList) :
      Written (.string, text) (String.ofList (quote :: text.toList ++ [quote]))
  | verbatim {kind : Token.Kind} {text : String} (other : kind ≠ .string) :
      Written (kind, text) text

theorem exists_written {content : Token.Kind × String} (h : content.1.Allows content.2) :
    ∃ piece, Written content piece := by
  obtain ⟨kind, text⟩ := content
  by_cases hstring : kind = .string
  · subst hstring
    exact ⟨_, .string (Lexeme.spells_between h).1.1 (quoteFor_notMem h)⟩
  · exact ⟨text, .verbatim hstring⟩

/-- The lexeme of which the piece is the spelling has the token that was written down. -/
theorem exists_lexeme_of_written {kind : Token.Kind} {text piece : String} (h : kind.Allows text)
    (hpiece : Written (kind, text) piece) :
    ∃ lexeme : Lexeme, lexeme.Spells piece ∧
      ∀ position, (lexeme.token position).content = (kind, text) := by
  cases hpiece with
  | @string _ quote sort free =>
    refine ⟨.quoted quote text.toList, ⟨⟨sort, free⟩, rfl⟩, fun position => ?_⟩
    rw [Lexeme.token, String.ofList_toList]
    rfl
  | verbatim other =>
    cases kind with
    | string => exact absurd rfl other
    | integer =>
      refine ⟨.integer text.toList, ⟨h, String.ofList_toList⟩, fun position => ?_⟩
      rw [Lexeme.token, String.ofList_toList]
      rfl
    | decimal =>
      rcases h with ⟨whole, fraction, htext, hwhole, hfraction⟩
      have hspelled : String.ofList (whole ++ '.' :: fraction) = text := by
        rw [← htext, String.ofList_toList]
      refine ⟨.decimal whole fraction, ⟨⟨hwhole, hfraction⟩, hspelled⟩, fun position => ?_⟩
      rw [Lexeme.token, hspelled]
      rfl
    | word =>
      -- the lexeme of these letters is no keyword, so the word stays a word
      rcases h with ⟨hword, hletter, hplain⟩
      refine ⟨.word text.toList, ⟨⟨hword, hletter⟩, String.ofList_toList⟩, fun position => ?_⟩
      rw [← denotes_iff.1 (.word hplain), String.ofList_toList]
      rfl
    | comma =>
      obtain rfl : text = "," := h
      exact ⟨.comma, ⟨trivial, rfl⟩, fun position => rfl⟩
    | keyword reserved =>
      -- a keyword has one text only, whatever letters it was written in
      obtain rfl : text = reserved.spelling := h
      refine ⟨.bare reserved.spelling, Lexeme.spells_bare (isKeyName_spelling reserved), ?_⟩
      intro position
      rw [Lexeme.token_bare_keyword]
      rfl

theorem exists_pieces {contents : List (Token.Kind × String)}
    (h : ∀ content ∈ contents, content.1.Allows content.2) :
    ∃ pieces, List.Forall₂ Written contents pieces := by
  induction contents with
  | nil => exact ⟨[], .nil⟩
  | cons content others ih =>
    rcases exists_written (h content List.mem_cons_self) with ⟨piece, hpiece⟩
    rcases ih fun other hother => h other (List.mem_cons_of_mem content hother) with
      ⟨pieces, hpieces⟩
    exact ⟨piece :: pieces, .cons hpiece hpieces⟩

theorem exists_lexemes_of_written {contents : List (Token.Kind × String)} {pieces : List String}
    (h : ∀ content ∈ contents, content.1.Allows content.2)
    (hpieces : List.Forall₂ Written contents pieces) :
    ∃ lexemes, List.Forall₂ Lexeme.Spells lexemes pieces ∧
      ∀ position, (Lexeme.tokensFrom position lexemes).map Token.content = contents := by
  induction hpieces with
  | nil => exact ⟨[], .nil, fun _ => rfl⟩
  | @cons content piece others later hfirst _ ih =>
    rcases exists_lexeme_of_written (h content List.mem_cons_self) hfirst with
      ⟨lexeme, hspells, hcontent⟩
    rcases ih fun other hother => h other (List.mem_cons_of_mem content hother) with
      ⟨lexemes, hlexemes, hcontents⟩
    refine ⟨lexeme :: lexemes, .cons hspells hlexemes, fun position => ?_⟩
    rw [Lexeme.tokensFrom, List.map_cons, hcontent, hcontents]

theorem outline_intercalate_of_written {contents : List (Token.Kind × String)}
    {pieces : List String} (h : ∀ content ∈ contents, content.1.Allows content.2)
    (hpieces : List.Forall₂ Written contents pieces) :
    outline (tokenize (" ".intercalate pieces)) = .ok contents := by
  rcases exists_lexemes_of_written h hpieces with ⟨lexemes, hlexemes, hcontents⟩
  rw [tokenize_intercalate hlexemes, outline, hcontents]

theorem allows_of_outline {text : String} {contents : List (Token.Kind × String)}
    (h : outline (tokenize text) = .ok contents) :
    ∀ content ∈ contents, content.1.Allows content.2 := by
  cases htokens : tokenize text with
  | error error =>
    rw [htokens] at h
    exact absurd h (by simp [outline])
  | ok tokens =>
    rw [htokens] at h
    obtain rfl := Except.ok.inj h
    intro content hcontent
    rcases List.mem_map.1 hcontent with ⟨token, htoken, rfl⟩
    exact allows_of_scannable (scannable_of_tokenize htokens token htoken)

/-- A row of kinds and texts is that of the tokens of some text exactly if each kind allows its
    text.  Such a text is any row of the tokens written down, with single spaces between them. -/
theorem exists_outline_iff_allowed (contents : List (Token.Kind × String)) :
    ((∃ text, outline (tokenize text) = .ok contents) ↔
      ∀ content ∈ contents, content.1.Allows content.2) ∧
    ((∀ content ∈ contents, content.1.Allows content.2) →
      (∃ pieces, List.Forall₂ Written contents pieces) ∧
      ∀ pieces, List.Forall₂ Written contents pieces →
        outline (tokenize (" ".intercalate pieces)) = .ok contents) := by
  refine ⟨⟨?_, ?_⟩, ?_⟩
  · rintro ⟨text, htext⟩
    exact allows_of_outline htext
  · intro h
    rcases exists_pieces h with ⟨pieces, hpieces⟩
    exact ⟨" ".intercalate pieces, outline_intercalate_of_written h hpieces⟩
  · intro h
    exact ⟨exists_pieces h, fun pieces hpieces => outline_intercalate_of_written h hpieces⟩

/-- A string that holds a quote, a word that begins with a digit, and a keyword. -/
theorem exists_outline_of_mixed :
    (∀ content ∈ [(.string, "it's"), (.word, "1_x"), (.keyword .put, "put")],
      Token.Kind.Allows content.1 content.2) ∧
    List.Forall₂ Written [(.string, "it's"), (.word, "1_x"), (.keyword .put, "put")]
      ["\"it's\"", "1_x", "put"] ∧
    outline (tokenize "\"it's\" 1_x put") =
      .ok [(.string, "it's"), (.word, "1_x"), (.keyword .put, "put")] := by
  have hallowed : ∀ content ∈ [(.string, "it's"), (.word, "1_x"), (.keyword .put, "put")],
      Token.Kind.Allows content.1 content.2 := by
    have hword : Token.Kind.Allows .word "1_x" := by
      refine ⟨by simp; decide, ⟨'x', by simp, by decide⟩, ?_⟩
      intro keyword
      cases keyword <;> decide
    simpa using ⟨(by decide +kernel : hasBothQuotes "it's".toList = false), hword, rfl⟩
  have hstring : Written (.string, "it's") "\"it's\"" :=
    .string (show isQuote '"' = true by decide) (by simp)
  have hwritten : List.Forall₂ Written [(.string, "it's"), (.word, "1_x"), (.keyword .put, "put")]
      ["\"it's\"", "1_x", "put"] :=
    .cons hstring (.cons (.verbatim (by simp)) (.cons (.verbatim (by simp)) .nil))
  exact ⟨hallowed, hwritten, ((exists_outline_iff_allowed _).2 hallowed).2 _ hwritten⟩

end StoreCommand
