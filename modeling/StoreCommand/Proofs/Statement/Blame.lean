import StoreCommand.Proofs.Lexeme.Locality
import StoreCommand.Proofs.Statement.Prefix
import StoreCommand.Proofs.Statement.QuotedKey

/-!
# Where an error cuts a text

The offset of a refused token cuts the text in two.  What is in front of it has the tokens in front
of the refused one, and it is the beginning of some command; what is behind it has the other tokens;
and with the refused token the text is the beginning of no command.

Two things are to be shown on top of the facts about tokens.  A text can be cut at the start of each
of its tokens, which is what passing a part of a text is about.  And the tokens that complete the
front have to be tokens of a text: a completion is found in the grammar first, and then each of its
tokens is replaced by a string (`Replaces`), because hardly any place of a sentence asks for more
than a text.
-/

namespace StoreCommand

/-! ### Other tokens in the same sentence -/

/-- `other` can take the place of `token`: it has the same text, or no text at all where that text
    could not be quoted. -/
def Replaces (other token : Token) : Prop :=
  other.text = token.text ∨ (hasBothQuotes token.text.toList = true ∧ other.text = "")

theorem Replaces.refl (token : Token) : Replaces token token :=
  Or.inl rfl

/-- A text that can be quoted is kept. -/
theorem Replaces.text_eq {other token : Token} {text : String} (h : Replaces other token)
    (htext : token.text = text) (hquotes : hasBothQuotes text.toList = false) :
    other.text = text := by
  rcases h with hsame | ⟨hboth, -⟩
  · rw [hsame, htext]
  · rw [htext, hquotes] at hboth
    exact absurd hboth (by simp)

theorem Replaces.key_eq {other token : Token} (h : Replaces other token)
    (hkey : isKeyName token.text = true) : other.text = token.text :=
  h.text_eq rfl (hasBothQuotes_of_isKeyName hkey)

theorem grants_empty (vocabulary : Vocabulary) : PermissionList.Grants vocabulary "" [] := by
  have hentries : PermissionList.entries "" = [] := by decide +kernel
  refine ⟨?_, Or.inr ⟨?_, hentries.symm⟩⟩
  · simp [hentries]
  · simp [hentries]

/-- A list of permissions without a quotable text is replaced by the empty one. -/
theorem Replaces.exists_grants {vocabulary : Vocabulary} {other token : Token}
    {names : List String} (h : Replaces other token)
    (hgrants : PermissionList.Grants vocabulary token.text names) :
    ∃ granted, PermissionList.Grants vocabulary other.text granted := by
  rcases h with hsame | ⟨-, hempty⟩
  · exact ⟨names, by rwa [hsame]⟩
  · exact ⟨[], by rw [hempty]; exact grants_empty vocabulary⟩

theorem exists_changeForm_of_replaces {vocabulary : Vocabulary} {tokens others : List Token}
    {change : UserChange} (h : ChangeForm vocabulary tokens change)
    (hothers : List.Forall₂ Replaces others tokens) :
    ∃ result, ChangeForm vocabulary others result := by
  cases h with
  | password isField isTo =>
    rcases hothers with _ | ⟨hfield, _ | ⟨hto, _ | ⟨hnew, _ | _⟩⟩⟩
    exact ⟨_, .password (hfield.text_eq isField (by decide)) (hto.text_eq isTo (by decide))⟩
  | username isField isTo =>
    rcases hothers with _ | ⟨hfield, _ | ⟨hto, _ | ⟨hnew, _ | _⟩⟩⟩
    exact ⟨_, .username (hfield.text_eq isField (by decide)) (hto.text_eq isTo (by decide))⟩
  | permissions isField granted =>
    rcases hothers with _ | ⟨hfield, _ | ⟨hlist, _ | _⟩⟩
    rcases hlist.exists_grants granted with ⟨names, hnames⟩
    exact ⟨_, .permissions (hfield.text_eq isField (by decide)) hnames⟩
  | active isField isTrue =>
    rcases hothers with _ | ⟨hfield, _ | ⟨hflag, _ | _⟩⟩
    exact ⟨_, .active (hfield.text_eq isField (by decide)) (hflag.text_eq isTrue (by decide))⟩
  | inactive isField isFalse =>
    rcases hothers with _ | ⟨hfield, _ | ⟨hflag, _ | _⟩⟩
    exact ⟨_, .inactive (hfield.text_eq isField (by decide)) (hflag.text_eq isFalse (by decide))⟩

theorem exists_flagForm_of_replaces {strict active : Bool} {tokens others : List Token}
    (h : FlagForm strict tokens active) (hothers : List.Forall₂ Replaces others tokens) :
    ∃ result, FlagForm strict others result := by
  cases h with
  | lenient isLenient =>
    -- lenient options take any word for the flag
    rcases hothers with _ | ⟨hflag, _ | _⟩
    exact ⟨_, .lenient isLenient⟩
  | active isStrict isActive =>
    rcases hothers with _ | ⟨hflag, _ | _⟩
    exact ⟨_, .active isStrict (hflag.text_eq isActive (by decide))⟩
  | inactive isStrict isNot isActive =>
    rcases hothers with _ | ⟨hnot, _ | ⟨hflag, _ | _⟩⟩
    exact ⟨_, .inactive isStrict (hnot.text_eq isNot (by decide))
      (hflag.text_eq isActive (by decide))⟩

/-- Behind its first token a sentence asks for texts only, and any text that cannot be quoted stands
    where the empty text may stand too. -/
theorem exists_form_of_replaces {options : Options} {first : Token} {tokens others : List Token}
    {statement : Statement} (h : Form options (first :: tokens) statement)
    (hothers : List.Forall₂ Replaces others tokens) :
    ∃ result, Form options (first :: others) result := by
  cases h with
  | put isPut isIn isKey =>
    -- the new value may be another one, but every string is a value
    rcases hothers with _ | ⟨hvalue, _ | ⟨hin, _ | ⟨hkey, _ | _⟩⟩⟩
    exact ⟨_, .put isPut (hin.text_eq isIn (by decide)) (by rwa [hkey.key_eq isKey])⟩
  | getUser isGet isUser =>
    -- the word `user` is kept, and any text will do for the name
    rcases hothers with _ | ⟨hselector, _ | ⟨huser, _ | _⟩⟩
    exact ⟨_, .getUser isGet (hselector.text_eq isUser (by decide))⟩
  | get isGet notUser isKey =>
    -- a key can be quoted, so it is kept, and with it that it is not the word `user`
    rcases hothers with _ | ⟨hkey, _ | _⟩
    exact ⟨_, .get isGet (by rwa [hkey.key_eq isKey]) (by rwa [hkey.key_eq isKey])⟩
  | deleteUser isDelete isUser =>
    rcases hothers with _ | ⟨hselector, _ | ⟨huser, _ | _⟩⟩
    exact ⟨_, .deleteUser isDelete (hselector.text_eq isUser (by decide))⟩
  | delete isDelete notUser isKey =>
    rcases hothers with _ | ⟨hkey, _ | _⟩
    exact ⟨_, .delete isDelete (by rwa [hkey.key_eq isKey]) (by rwa [hkey.key_eq isKey])⟩
  | listUsers isList isUsers =>
    rcases hothers with _ | ⟨hnoun, _ | _⟩
    exact ⟨_, .listUsers isList (hnoun.text_eq isUsers (by decide))⟩
  | updateUser isUpdate isUser isSet changed =>
    -- the words are kept, and the change is one of the same field
    rcases hothers with _ | ⟨hselector, _ | ⟨huser, _ | ⟨hset, htail⟩⟩⟩
    rcases exists_changeForm_of_replaces changed htail with ⟨change, hchange⟩
    exact ⟨_, .updateUser isUpdate (hselector.text_eq isUser (by decide))
      (hset.text_eq isSet (by decide)) hchange⟩
  | registerUser isRegister connected granted flagged =>
    -- strict options ask for the four words between the parts, lenient ones do not look at them
    rcases hothers with _ | ⟨hselector, _ | ⟨huser, _ | ⟨hpassword, _ | ⟨hwith, _ | ⟨hlist,
      _ | ⟨hand, _ | ⟨his, htail⟩⟩⟩⟩⟩⟩⟩
    rcases hlist.exists_grants granted with ⟨names, hnames⟩
    rcases exists_flagForm_of_replaces flagged htail with ⟨active, hactive⟩
    refine ⟨_, .registerUser isRegister ?_ hnames hactive⟩
    intro hstrict
    rcases connected hstrict with ⟨isUser, isWith, isAnd, isIs⟩
    exact ⟨hselector.text_eq isUser (by decide), hwith.text_eq isWith (by decide),
      hand.text_eq isAnd (by decide), his.text_eq isIs (by decide)⟩

theorem exists_first_of_form {options : Options} {sentence : List Token} {statement : Statement}
    (h : Form options sentence statement) : ∃ first rest, sentence = first :: rest := by
  cases h <;> exact ⟨_, _, rfl⟩

/-! ### Texts that complete a command -/

/-- The text itself, or nothing if it cannot be quoted. -/
def quotableText (text : String) : String :=
  if hasBothQuotes text.toList = true then "" else text

theorem hasBothQuotes_quotableText (text : String) :
    hasBothQuotes (quotableText text).toList = false := by
  unfold quotableText
  split
  · decide
  · rename_i h
    simpa using h

/-- A string with the text of a token, as a piece of a text. -/
def stringPiece (token : Token) : Piece :=
  .string (quotableText token.text) (hasBothQuotes_quotableText token.text)

theorem replaces_stringPieces (tokens : List Token) (position : Nat) :
    List.Forall₂ Replaces
      (Lexeme.tokensFrom position ((tokens.map stringPiece).map Piece.lexeme)) tokens := by
  induction tokens generalizing position with
  | nil => exact .nil
  | cons token rest ih =>
    refine .cons ?_ (ih _)
    rw [Replaces, stringPiece, Piece.string, text_token_between, quotableText]
    split
    · rename_i hboth
      exact Or.inr ⟨hboth, rfl⟩
    · exact Or.inl rfl

/-- A row of pieces behind a text with tokens adds the tokens of its lexemes. -/
theorem exists_tokenize_row {front : String} {tokens : List Token} {lexemes : List Lexeme}
    {pieces : List String} (h : tokenize front = .ok tokens)
    (hpieces : List.Forall₂ Lexeme.Spells lexemes pieces) :
    ∃ position, tokenize (front ++ (" " ++ " ".intercalate pieces)) =
      .ok (tokens ++ Lexeme.tokensFrom position lexemes) := by
  refine ⟨front.length + 1, ?_⟩
  rw [tokenize, String.toList_append, scan_append h (cleanJoin_space _ _), toList_space_append,
    scan_of_isBlank (by decide), scan_intercalate hpieces, Nat.zero_add, String.length_toList,
    Except.map]

/-- Tokens of a text that some tokens complete are completed by some text. -/
theorem exists_text_of_completion {options : Options} {front : String} {before more : List Token}
    {statement : Statement} (h : tokenize front = .ok before)
    (hmore : Statement.ofTokens options (before ++ more) = .ok statement) :
    ∃ text result, Statement.ofText options (front ++ text) = .ok result := by
  cases before with
  | nil =>
    -- nothing has been said yet, so any command will do
    have hpieces : List.Forall₂ Lexeme.Spells [.bare "list", .bare "users"] ["list", "users"] :=
      Piece.spells_row [.word "list", .word "users"]
    rcases exists_tokenize_row h hpieces with ⟨position, htokens⟩
    refine ⟨_, .listUsers, ofText_eq_ok_iff.2 ⟨_, [], htokens.trans (by rw [List.append_nil]), ?_⟩⟩
    exact .listUsers (kind_token_bare .list _) (Lexeme.text_token_small (by simp) _)
  | cons first before =>
    -- the first token stays as it is, and its kind with it; the new ones become strings
    rcases Reading.runAfter_eq_ok_iff.1 hmore with ⟨sentence, rest, hsplit, haccepts⟩
    have hform := Reading.accepts_statement_iff.1 haccepts
    obtain ⟨head, tail, rfl⟩ := exists_first_of_form hform
    obtain ⟨rfl, htail⟩ : first = head ∧ before ++ more = tail ++ rest := List.cons.inj hsplit
    rcases exists_tokenize_row h (Piece.spells_row (more.map stringPiece)) with
      ⟨position, htokens⟩
    generalize hothers : Lexeme.tokensFrom position ((more.map stringPiece).map Piece.lexeme) =
      others at htokens
    have hreplaces : List.Forall₂ Replaces (before ++ others) (tail ++ rest) := by
      have hfront : List.Forall₂ Replaces before before :=
        List.forall₂_same.2 fun token _ => Replaces.refl token
      have hback : List.Forall₂ Replaces others more := by
        rw [← hothers]
        exact replaces_stringPieces more position
      rw [← htail]
      exact List.rel_append hfront hback
    have hsentence := List.forall₂_take_append _ _ _ hreplaces
    rcases exists_form_of_replaces hform hsentence with ⟨result, hresult⟩
    refine ⟨" " ++ " ".intercalate ((more.map stringPiece).map Piece.text), result,
      ofText_eq_ok_iff.2
      ⟨_, (before ++ others).drop tail.length, ?_, hresult⟩⟩
    rw [htokens, List.cons_append, List.cons_append, List.take_append_drop]

/-! ### Cutting at the token at fault -/

def Token.moveBack (offset : Nat) (token : Token) : Token :=
  { token with position := token.position - offset }

theorem moveBack_shift (offset : Nat) (tokens : List Token) :
    (tokens.map (Token.shift offset)).map (Token.moveBack offset) = tokens := by
  rw [List.map_map]
  conv => rhs; rw [← List.map_id tokens]
  apply List.map_congr_left
  intro token _
  simp [Token.shift, Token.moveBack]

/-- The start of each token cuts a text in two, with the tokens of the one part in front of those of
    the other. -/
theorem exists_cut {text : String} {before later : List Token} {token : Token}
    (h : tokenize text = .ok (before ++ token :: later)) :
    token.position < text.length ∧
      (∀ other ∈ before, other.position < token.position) ∧
      (∀ other ∈ token :: later, token.position ≤ other.position) ∧
      tokenize (textBefore token.position text) = .ok before ∧
      tokenize (textFrom token.position text) =
        .ok ((token :: later).map (Token.moveBack token.position)) := by
  rcases (passed_of_scan h).split rfl with ⟨first, second, htext, hposition, hfirst, hsecond⟩
  obtain hplace : token.position = first.length := by omega
  have hbefore := hfirst.position_mem
  have hlater := hsecond.position_mem
  refine ⟨?_, ?_, fun other hmem => (hlater other hmem).1, ?_, ?_⟩
  · have hhead := hlater token List.mem_cons_self
    rw [← String.length_toList, htext, List.length_append]
    omega
  · intro other hmem
    have hrange := hbefore other hmem
    omega
  · rw [hplace, textBefore_of_append htext]
    exact tokenize_of_passed hfirst
  · -- the second part has its own tokens, which the first part has moved
    have hscan := scan_of_passed hsecond
    rw [List.append_nil, scan_nil, Except.map, List.append_nil, scan_eq_shifted] at hscan
    rw [hplace, textFrom_of_append htext, ← hplace, tokenize, String.toList_ofList]
    cases hrest : scan 0 second with
    | error error =>
      rw [hrest] at hscan
      exact absurd hscan (by simp [shifted])
    | ok tokens =>
      rw [hrest, shifted] at hscan
      rw [← Except.ok.inj hscan, moveBack_shift]

/-- Once a token is refused, no text behind a blank helps. -/
theorem ofText_ne_ok_of_refused {options : Options} {text : String} {cause : ParseError.Cause}
    {place : Nat} (h : Statement.ofText options text = .error (.parse ⟨cause, some place⟩))
    (more : String) (statement : Statement) :
    Statement.ofText options (text ++ (" " ++ more)) ≠ .ok statement := by
  rcases ofText_eq_parse_error_iff.1 h with ⟨tokens, htokens, herror⟩
  have hdecided : ∀ other, Statement.ofTokens options tokens ≠ .error ⟨other, none⟩ := by
    intro other hother
    rw [herror] at hother
    exact absurd hother (by simp)
  intro hok
  rw [Statement.ofText, tokenize_append htokens (cleanJoin_space _ more)] at hok
  cases hmore : shifted text.length (tokenize (" " ++ more)) with
  | error error =>
    rw [hmore] at hok
    exact absurd hok (by simp [Except.map])
  | ok later =>
    rw [hmore] at hok
    simp only [Except.map, ofTokens_append hdecided later, herror] at hok
    exact absurd hok (by simp)

/-- The position of a refused token cuts the text at the right character.  In front of it are the
    tokens that came before, the beginning of some command; behind it are the others; and nothing
    that follows the text makes a command of it. -/
theorem ofText_cut_at_refused {options : Options} {text : String} {cause : ParseError.Cause}
    {place : Nat} (h : Statement.ofText options text = .error (.parse ⟨cause, some place⟩)) :
    place < text.length ∧
    (∃ before later, tokenize text = .ok (before ++ later) ∧
      (∀ token ∈ before, token.position < place) ∧ (∀ token ∈ later, place ≤ token.position) ∧
      tokenize (textBefore place text) = .ok before ∧
      tokenize (textFrom place text) = .ok (later.map (Token.moveBack place))) ∧
    (∃ missing, Statement.ofText options (textBefore place text) =
      .error (.parse ⟨missing, none⟩)) ∧
    (∃ more statement, Statement.ofText options (textBefore place text ++ more) = .ok statement) ∧
    ∀ more statement, Statement.ofText options (text ++ " " ++ more) ≠ .ok statement := by
  rcases ofText_eq_parse_error_iff.1 h with ⟨tokens, htokens, herror⟩
  rcases Reading.exists_blamed herror with
    ⟨hrefused, -⟩ | ⟨before, blamed, behind, rfl, rfl, ⟨missing, hshort⟩, -⟩
  · exact absurd hrefused (by simp [Reading.statement])  -- nothing is refused before a token
  · rcases exists_cut htokens with ⟨hlength, hbefore, hbehind, hfront, hback⟩
    refine ⟨hlength, ⟨before, blamed :: behind, htokens, hbefore, hbehind, hfront, hback⟩,
      ⟨missing, ofText_eq_parse_error_iff.2 ⟨before, hfront, hshort⟩⟩, ?_, ?_⟩
    · rcases (exists_ofTokens_append hshort).2 with ⟨more, statement, hmore⟩
      exact exists_text_of_completion hfront hmore
    · intro more statement
      rw [String.append_assoc]
      exact ofText_ne_ok_of_refused h more statement

/-- Tokens that touch, and a letter of another script in front of them. -/
theorem ofText_cut_at_touching :
    Statement.ofText {} "put 'é'1.5abc in k" = .error (.parse ⟨.wrongWord "in" "1.5", some 7⟩) ∧
      tokenize (textBefore 7 "put 'é'1.5abc in k") =
        .ok [⟨.keyword .put, "put", 0⟩, ⟨.string, "é", 4⟩] ∧
      (∃ missing, Statement.ofText {} (textBefore 7 "put 'é'1.5abc in k") =
        .error (.parse ⟨missing, none⟩)) ∧
      (∃ more statement,
        Statement.ofText {} (textBefore 7 "put 'é'1.5abc in k" ++ more) = .ok statement) ∧
      ∀ more statement,
        Statement.ofText {} ("put 'é'1.5abc in k" ++ " " ++ more) ≠ .ok statement := by
  have hrefused : Statement.ofText {} "put 'é'1.5abc in k" =
      .error (.parse ⟨.wrongWord "in" "1.5", some 7⟩) := by decide +kernel
  exact ⟨hrefused, by decide +kernel, (ofText_cut_at_refused hrefused).2.2⟩

end StoreCommand
