import StoreCommand.Proofs.Lexeme.Passage
import StoreCommand.Proofs.Lexeme.Spaced

/-!
# Texts that are one word

A key is looked at twice.  The name of a key is checked character by character, with no regard to
tokens, and a key in a command is whatever scanning finds there.  Canonical texts write keys without
quotes, so scanning has to find the name of a key as one word, neither cut nor joined to anything.

`IsOneWord` says what it means for scanning that a text is one word.  This is so exactly if its
characters are a word of the language, and then its token is that of the word (`isOneWord_iff`).
The names of keys are those texts of this sort that begin with a letter
(`isKeyName_iff_wellFormed`).  So the two ways to look at a key agree on every text.
-/

namespace StoreCommand

/-- Scanning gives this token alone, a word or a keyword that begins where the text begins and is as
    long as the text. -/
structure IsOneWord (text : String) (token : Token) : Prop where
  tokenized : tokenize text = .ok [token]
  kind : token.kind = .word ∨ token.kind.isKeyword = true
  position : token.position = 0
  length : token.text.length = text.length

/-! ### Words and their tokens -/

theorem exists_letters_iff_of_denotes {position : Nat} {lexeme : Lexeme} {token : Token}
    (h : Denotes position lexeme token) :
    (∃ letters, lexeme = .word letters) ↔ token.kind = .word ∨ token.kind.isKeyword = true := by
  cases h with
  | keyword => simp [Token.Kind.isKeyword]
  | word => simp
  | _ => simp [Token.Kind.isKeyword]

/-- A text begins with the lexeme of its only token, if the token is at the start of the text. -/
theorem exists_lexeme_of_tokenize {text : String} {token : Token} (h : tokenize text = .ok [token])
    (hposition : token.position = 0) :
    ∃ (lexeme : Lexeme) (behind : List Char), text.toList = lexeme.spelling ++ behind ∧
      lexeme.WellFormed ∧ Denotes 0 lexeme token := by
  rcases (passed_of_scan h).exists_lexeme hposition with
    ⟨lexeme, behind, htext, htoken, hwell, -, -⟩
  exact ⟨lexeme, behind, htext, hwell, denotes_iff.2 htoken⟩

/-- A text is one word exactly if all its characters together are a word of the language. -/
theorem isOneWord_iff {text : String} {token : Token} :
    IsOneWord text token ↔ (Lexeme.bare text).WellFormed ∧ Denotes 0 (.bare text) token := by
  constructor
  · intro h
    rcases exists_lexeme_of_tokenize h.tokenized h.position with
      ⟨lexeme, behind, htext, hwell, hdenotes⟩
    -- a token of one of these kinds comes from a word
    obtain ⟨letters, rfl⟩ := (exists_letters_iff_of_denotes hdenotes).2 h.kind
    -- the word is as long as the text, so nothing is behind it
    have hlength : letters.length = (letters ++ behind).length := by
      rw [← length_text_of_denotes hdenotes, h.length, ← String.length_toList, htext]
      rfl
    obtain rfl : behind = [] := by simpa using hlength
    obtain rfl : text.toList = letters := by rw [htext, List.append_nil, Lexeme.spelling]
    exact ⟨hwell, hdenotes⟩
  · rintro ⟨hwell, hdenotes⟩
    obtain rfl := denotes_iff.1 hdenotes
    refine ⟨tokenize_of_spells ⟨hwell, String.ofList_toList⟩, ?_, position_token 0 _, ?_⟩
    · exact (exists_letters_iff_of_denotes hdenotes).1 ⟨text.toList, rfl⟩
    · rw [length_text_of_denotes hdenotes, String.length_toList]

theorem exists_isOneWord_iff {text : String} :
    (∃ token, IsOneWord text token) ↔ (Lexeme.bare text).WellFormed := by
  constructor
  · rintro ⟨token, h⟩
    exact (isOneWord_iff.1 h).1
  · intro hwell
    exact ⟨(Lexeme.bare text).token 0, isOneWord_iff.2 ⟨hwell, denotes_iff.2 rfl⟩⟩

/-- The token keeps the text, unless this is a keyword in any case of its letters. -/
theorem eq_of_isOneWord {text : String} {token : Token} (h : IsOneWord text token) :
    (∀ keyword : Keyword, loweredKey text = keyword.spelling →
      token = ⟨.keyword keyword, loweredKey text, 0⟩) ∧
    ((∀ keyword : Keyword, loweredKey text ≠ keyword.spelling) → token = ⟨.word, text, 0⟩) := by
  cases (isOneWord_iff.1 h).2 with
  | keyword found spelled =>
    refine ⟨fun keyword hkeyword => ?_, fun hplain => absurd spelled (hplain found)⟩
    rw [Keyword.spelling_inj (hkeyword.symm.trans spelled)]
    rfl
  | word plain =>
    refine ⟨fun keyword hkeyword => absurd hkeyword (plain keyword), fun _ => ?_⟩
    rw [String.ofList_toList]

/-! ### Names of keys -/

/-- The names of keys are the words that begin neither with a digit nor with an underscore. -/
theorem isKeyName_iff_wellFormed {text : String} :
    isKeyName text = true ↔ (Lexeme.bare text).WellFormed ∧
      ∀ c ∈ text.toList.head?, c.isDigit = false ∧ c ≠ '_' := by
  constructor
  · intro h
    refine ⟨(Lexeme.spells_bare h).1, ?_⟩
    intro c hc
    rcases List.head?_eq_some_iff.1 hc with ⟨rest, htext⟩
    rw [isKeyName, htext, Bool.and_eq_true] at h
    refine ⟨isDigit_of_isAlpha h.1, ?_⟩
    rintro rfl
    exact absurd h.1 (by decide)
  · rintro ⟨⟨⟨hne, hword⟩, -⟩, hhead⟩
    obtain ⟨c, rest, htext⟩ := List.exists_cons_of_ne_nil hne
    rw [htext] at hword hhead
    obtain ⟨hdigit, hunderscore⟩ := hhead c rfl
    obtain ⟨hfirst, hrest⟩ := List.forall_mem_cons.1 hword
    rw [isKeyName, htext, Bool.and_eq_true]
    exact ⟨isAlpha_of_isWordChar hfirst hdigit hunderscore, List.all_eq_true.2 hrest⟩

/-- The name of a key is a text that scanning takes for one word and that begins neither with a
    digit nor with an underscore.  The token of such a word has the text itself, but for a keyword
    in any case of its letters, which has its lowered letters. -/
theorem isKeyName_iff_isOneWord (text : String) :
    (isKeyName text = true ↔ (∃ token, IsOneWord text token) ∧
      ∀ c ∈ text.toList.head?, c.isDigit = false ∧ c ≠ '_') ∧
    ∀ token, IsOneWord text token →
      (∀ keyword : Keyword, loweredKey text = keyword.spelling →
        token = ⟨.keyword keyword, loweredKey text, 0⟩) ∧
      ((∀ keyword : Keyword, loweredKey text ≠ keyword.spelling) → token = ⟨.word, text, 0⟩) := by
  constructor
  · rw [exists_isOneWord_iff]
    exact isKeyName_iff_wellFormed
  · intro token h
    exact eq_of_isOneWord h

/-- A keyword in capitals is one word and the name of a key.  A word that begins with an underscore
    is one word as well, but it is not the name of a key. -/
theorem isKeyName_iff_isOneWord_put :
    (IsOneWord "PUT" ⟨.keyword .put, "put", 0⟩ ∧ isKeyName "PUT" = true ∧
      ∀ token, IsOneWord "PUT" token → token = ⟨.keyword .put, "put", 0⟩) ∧
    IsOneWord "_Put" ⟨.word, "_Put", 0⟩ ∧ isKeyName "_Put" = false ∧
      ∀ token, IsOneWord "_Put" token → token = ⟨.word, "_Put", 0⟩ := by
  have hcapitals : IsOneWord "PUT" ⟨.keyword .put, "put", 0⟩ :=
    ⟨by decide +kernel, Or.inr rfl, rfl, by decide +kernel⟩
  have hunderscore : IsOneWord "_Put" ⟨.word, "_Put", 0⟩ :=
    ⟨by decide +kernel, Or.inl rfl, rfl, rfl⟩
  have hletter : ∀ c ∈ "PUT".toList.head?, c.isDigit = false ∧ c ≠ '_' := by simp
  have hplain : ∀ keyword : Keyword, loweredKey "_Put" ≠ keyword.spelling := by
    intro keyword
    cases keyword <;> decide +kernel
  refine ⟨⟨hcapitals, ?_, fun token h => ?_⟩, hunderscore, ?_, fun token h => ?_⟩
  · exact (isKeyName_iff_isOneWord "PUT").1.2 ⟨⟨_, hcapitals⟩, hletter⟩
  · exact ((isKeyName_iff_isOneWord "PUT").2 token h).1 .put (by decide +kernel)
  · apply Bool.eq_false_iff.2
    intro hkey
    exact (((isKeyName_iff_isOneWord "_Put").1.1 hkey).2 '_' (by simp)).2 rfl
  · exact ((isKeyName_iff_isOneWord "_Put").2 token h).2 hplain

end StoreCommand
