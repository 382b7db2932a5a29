import Mathlib.Data.List.TakeWhile
import StoreCommand.Proofs.Statement.RoundTrip

/-!
# Strings that close their own quote

A string that holds both quotes is written between double quotes all the same, and when the text is
read, its first double quote closes it.  What was written behind is then read as the rest of the
command.  Mostly that is an error, but a string can be chosen so that it is not: it closes its own
quote, completes the command in another way and opens the remaining quotes again, and a statement is
read that was never written (`ofText_canonical_requoted`).

Such a statement is of the same kind, its strings in front are the written ones, and the string in
question is cut off before its first double quote (`CutOff`).  Without a string of this sort, a
plain statement is read as itself or has no tokens (`ofText_canonical_of_plain`).
-/

namespace StoreCommand

/-! ### Plain statements and their strings -/

namespace Statement

/-- The key is a key name that is no keyword whatever the case of its letters, and the permissions
    are `none` alone or standard ones without it.  Nothing is said about strings and numbers. -/
structure Plain (statement : Statement) : Prop where
  key : ∀ key, statement.key? = some key →
    isKeyName key = true ∧ ∀ keyword : Keyword, loweredKey key ≠ keyword.spelling
  permissions : ∀ names, statement.permissions? = some names →
    names = [nonePermission] ∨ (nonePermission ∉ names ∧
      ∀ name ∈ names, Vocabulary.standard.knows name = true)

end Statement

/-- The text in front of its first double quote. -/
def beforeQuote (text : String) : String :=
  String.ofList (text.toList.takeWhile (· != '"'))

/-- In `result`, the first of the strings with both quotes is cut off before its first double quote,
    and the strings in front of it are as they were. -/
def CutOff (strings result : List String) : Prop :=
  ∃ front text back, strings = front ++ text :: back ∧
    (∀ other ∈ front, hasBothQuotes other.toList = false) ∧ hasBothQuotes text.toList = true ∧
    front ++ [beforeQuote text] <+: result

theorem not_keyFolds_of_plain {statement : Statement} (h : statement.Plain) :
    ¬ statement.KeyFolds := by
  rintro ⟨key, hkey, -, keyword, hkeyword⟩
  exact (h.key key hkey).2 keyword hkeyword

theorem ne_user_of_plain {statement : Statement} (h : statement.Plain) {key : String}
    (hkey : statement.key? = some key) : key ≠ "user" := by
  rintro rfl
  exact (h.key "user" hkey).2 .user (by decide)

theorem readable_of_plain {statement : Statement} (h : statement.Plain) {names : List String}
    (hnames : statement.permissions? = some names) :
    PermissionList.Readable Vocabulary.standard names :=
  PermissionList.readable_standard (h.permissions names hnames)

/-! ### Numbers without a text -/

theorem tokenize_nan (key : String) :
    tokenize (Statement.put key (.float .nan)).canonical = .error ⟨.illegalCharacter '.', 7⟩ := by
  -- the word `NaN` is taken, and scanning stops at the dot behind it
  rcases exists_tokenize_put key (.float .nan) with ⟨rest, hrest⟩
  have hliteral : (Value.float .nan).literal.toList = "NaN.0".toList := by decide +kernel
  have hword : Lexeme.first? ('N' :: 'a' :: 'N' :: '.' :: '0' :: rest) =
      some (.word "NaN".toList, '.' :: '0' :: rest) := rfl
  have hdot : Lexeme.first? ('.' :: '0' :: rest) = none := rfl
  have hchars : "NaN.0".toList ++ rest = 'N' :: 'a' :: 'N' :: '.' :: '0' :: rest := rfl
  rw [hrest, hliteral, hchars, scan_of_first? (by decide) hword,
    scan_of_first?_eq_none (by decide) hdot]
  rfl

/-- A number that no text is read as has a text without tokens. -/
theorem exists_scan_error {key : String} {value : Value} (h : ¬ value.Expressible)
    (hstring : ∀ text, value ≠ .string text) :
    ∃ error, tokenize (Statement.put key value).canonical = .error error := by
  cases value with
  | string text => exact absurd rfl (hstring text)
  | int number =>
    have hneg : number.toInt < 0 := Int.not_le.1 h
    have hliteral : (Value.int number).literal.toList =
        '-' :: naturalDigits number.toInt.natAbs := by
      rw [Value.literal, String.toList_ofList, integerDigits, if_pos hneg]
    exact ⟨_, tokenize_minus hliteral⟩
  | float number =>
    -- not-a-number is written with letters, and below zero there is a minus sign
    cases number with
    | nan => exact ⟨_, tokenize_nan key⟩
    | number negative m =>
      cases negative with
      | false => exact absurd ⟨m, rfl⟩ h
      | true =>
        rcases exists_literal_negative m with ⟨tail, htail⟩
        have hliteral : (Value.float (.number true m)).literal.toList = '-' :: tail := by
          rw [Value.literal, String.toList_ofList, htail]
        exact ⟨_, tokenize_minus hliteral⟩
  | bool flag => exact absurd trivial h

/-- A plain statement whose strings can be quoted is expressible, or its number is not. -/
theorem expressible_of_plain {statement : Statement} (h : statement.Plain)
    (hquotes : ∀ text ∈ statement.strings, hasBothQuotes text.toList = false) :
    statement.Expressible Vocabulary.standard ∨
      ∃ key value, statement = .put key value ∧ ¬ value.Expressible ∧
        ∀ text, value ≠ .string text := by
  cases statement with
  | put key value =>
    by_cases hvalue : value.Expressible
    · exact Or.inl ⟨(h.key key rfl).1, hvalue⟩
    · refine Or.inr ⟨key, value, rfl, hvalue, ?_⟩
      rintro text rfl
      exact hvalue (hquotes text (by simp [Statement.strings]))
  | get key => exact Or.inl ⟨(h.key key rfl).1, ne_user_of_plain h rfl⟩
  | delete key => exact Or.inl ⟨(h.key key rfl).1, ne_user_of_plain h rfl⟩
  | registerUser username password permissions active =>
    refine Or.inl ⟨hquotes username ?_, hquotes password ?_, readable_of_plain h rfl⟩
    · simp [Statement.strings]
    · simp [Statement.strings]
  | updateUser username change =>
    refine Or.inl ⟨hquotes username (by simp [Statement.strings]), ?_⟩
    cases change with
    | password new =>
      exact hquotes new (by simp [Statement.strings, UserChange.strings])
    | username new =>
      exact hquotes new (by simp [Statement.strings, UserChange.strings])
    | permissions names => exact readable_of_plain h rfl
    | active flag => trivial
  | getUser username => exact Or.inl (hquotes username (by simp [Statement.strings]))
  | deleteUser username => exact Or.inl (hquotes username (by simp [Statement.strings]))
  | listUsers => exact Or.inl trivial

/-! ### Scanning a cut string -/

theorem exists_of_map_eq_ok {α β ε : Type} {f : α → β} {result : Except ε α} {value : β}
    (h : result.map f = .ok value) : ∃ input, result = .ok input ∧ value = f input := by
  cases result with
  | error error => exact absurd h (by simp [Except.map])
  | ok input => exact ⟨input, rfl, (Except.ok.inj h).symm⟩

/-- A string with both quotes ends before its first double quote. -/
theorem scan_requoted {text : String} (h : hasBothQuotes text.toList = true) {position : Nat}
    {rest : List Char} {tokens : List Token}
    (hscan : scan position ((quoted text).toList ++ rest) = .ok tokens) :
    ∃ more, tokens = ⟨.string, beforeQuote text, position⟩ :: more := by
  rcases hasBothQuotes_iff.1 h with ⟨hdouble, hsingle⟩
  have hquote : quoteFor text.toList = '"' := by
    rw [quoteFor, if_neg fun honly => honly.2 hsingle]
  obtain ⟨after, hafter⟩ : ∃ after, text.toList.dropWhile (· != '"') = '"' :: after := by
    cases hdrop : text.toList.dropWhile (· != '"') with
    | nil => simpa using List.dropWhile_eq_nil_iff.1 hdrop '"' hdouble
    | cons c after =>
      have hc : c = '"' := by simpa using dropWhile_not_head hdrop
      exact ⟨after, by rw [hc]⟩
  have hsplit : (quoted text).toList ++ rest = '"' :: text.toList.takeWhile (· != '"') ++
      '"' :: (after ++ '"' :: rest) := by
    have htext := List.takeWhile_append_dropWhile (p := (· != '"')) (l := text.toList)
    rw [hafter] at htext
    rw [quoted, String.toList_ofList, hquote]
    conv => lhs; rw [← htext]
    simp
  have hnot : '"' ∉ text.toList.takeWhile (· != '"') := by
    intro hmem
    simpa using List.all_eq_true.1 List.all_takeWhile _ hmem
  have hfirst := Lexeme.first?_quoted (by decide) hnot (after ++ '"' :: rest)
  rw [hsplit, scan_of_isLongest (Lexeme.first?_eq_some_iff.1 hfirst)] at hscan
  rcases exists_of_map_eq_ok hscan with ⟨more, -, rfl⟩
  exact ⟨more, rfl⟩

/-- The tokens of a row of pieces, one of which has both quotes: those of the pieces in front, then
    the cut string, then whatever follows. -/
theorem tokenize_requoted {lexemes : List Lexeme} {pieces back : List String} {text : String}
    {tokens : List Token} (hpieces : List.Forall₂ Lexeme.Spells lexemes pieces)
    (hne : pieces ≠ []) (hquotes : hasBothQuotes text.toList = true)
    (h : tokenize (" ".intercalate (pieces ++ quoted text :: back)) = .ok tokens) :
    ∃ position more, tokens =
      Lexeme.tokensFrom 0 lexemes ++ ⟨.string, beforeQuote text, position⟩ :: more := by
  obtain ⟨rest, hrest⟩ : ∃ rest, (" ".intercalate (quoted text :: back)).toList =
      (quoted text).toList ++ rest := by
    cases back with
    | nil => exact ⟨[], by rw [String.intercalate_singleton, List.append_nil]⟩  -- the last piece
    | cons piece back =>
      rw [String.intercalate_cons_cons, String.toList_append, String.toList_append,
        List.append_assoc]
      exact ⟨_, rfl⟩
  have hspace : (" ".intercalate (pieces ++ quoted text :: back)).toList =
      (" ".intercalate pieces).toList ++ ' ' :: ((quoted text).toList ++ rest) := by
    have hblank : " ".toList = [' '] := rfl
    rw [String.intercalate_append_of_ne_nil hne (by simp), String.toList_append,
      String.toList_append, hrest, hblank, List.append_assoc, List.singleton_append]
  obtain ⟨later, hlater⟩ := scan_intercalate_append hpieces hne
    (Lexeme.separated_space ((quoted text).toList ++ rest)) 0
  rw [tokenize, hspace, hlater, scan_of_isBlank (by decide)] at h
  rcases exists_of_map_eq_ok h with ⟨others, hscan, rfl⟩
  rcases scan_requoted hquotes hscan with ⟨more, rfl⟩
  exact ⟨later + 1, more, rfl⟩

/-! ### Reading a cut string -/

/-- What is read from the text of a statement with such a string is read from the tokens of the
    pieces in front of it, the cut string and whatever follows. -/
theorem exists_accepts_of_requoted (keyword : Keyword) {options : Options}
    {statement result : Statement} {lexemes : List Lexeme} {front back : List String}
    {text : String} (hpieces : statement.pieces = keyword.spelling :: front ++ quoted text :: back)
    (hfront : List.Forall₂ Lexeme.Spells lexemes front)
    (hquotes : hasBothQuotes text.toList = true)
    (h : Statement.ofText options statement.canonical = .ok result) :
    ∃ start position more sentence rest,
      Lexeme.tokensFrom start lexemes ++ ⟨.string, beforeQuote text, position⟩ :: more =
        sentence ++ rest ∧
      Reading.Accepts (Reading.statementAfter options (.keyword keyword)) sentence result := by
  rcases ofText_eq_ok_iff.1 h with ⟨whole, rest, htokens, hform⟩
  have hspells : List.Forall₂ Lexeme.Spells (.bare keyword.spelling :: lexemes)
      (keyword.spelling :: front) := Piece.spells_row_append [.keyword keyword] hfront
  rw [Statement.canonical, hpieces] at htokens
  rcases tokenize_requoted hspells (by simp) hquotes htokens with ⟨position, more, hsplit⟩
  obtain ⟨first, sentence, rfl, haccepts⟩ :=
    Reading.accepts_next.1 (Reading.accepts_statement_iff.2 hform)
  obtain ⟨rfl, hrest⟩ := List.cons.inj hsplit
  rw [kind_token_bare] at haccepts
  exact ⟨_, position, more, sentence, rest, hrest.symm, haccepts⟩

theorem cutOff_singleton {text : String} (h : hasBothQuotes text.toList = true)
    (back others : List String) : CutOff (text :: back) (beforeQuote text :: others) :=
  ⟨[], text, back, rfl, by simp, h, others, rfl⟩

theorem cutOff_cons {string : String} {strings result : List String}
    (h : hasBothQuotes string.toList = false) (hcut : CutOff strings result) :
    CutOff (string :: strings) (string :: result) := by
  rcases hcut with ⟨front, text, back, rfl, hfront, htext, hprefix⟩
  refine ⟨string :: front, text, back, rfl, ?_, htext, List.cons_prefix_cons.2 ⟨rfl, hprefix⟩⟩
  intro other hother
  rcases List.mem_cons.1 hother with rfl | hother
  · exact h
  · exact hfront other hother

theorem cutOff_put {options : Options} {key text : String} {result : Statement}
    (hquotes : hasBothQuotes text.toList = true)
    (h : Statement.ofText options (Statement.put key (.string text)).canonical = .ok result) :
    result.kind = "put" ∧ CutOff [text] result.strings := by
  have hpieces : (Statement.put key (.string text)).pieces =
      Keyword.put.spelling :: [] ++ quoted text :: ["in", key] := rfl
  obtain ⟨start, position, more, sentence, rest, hsplit, haccepts⟩ :=
    exists_accepts_of_requoted .put hpieces .nil hquotes h
  obtain ⟨value, joint, last, rfl, -, -, rfl⟩ := Reading.accepts_put.1 haccepts
  obtain ⟨rfl, -⟩ := List.cons.inj hsplit
  exact ⟨rfl, cutOff_singleton hquotes [] []⟩

/-- In front of the first string of a user there is only the word `user`. -/
theorem spells_user : List.Forall₂ Lexeme.Spells [.bare "user"] ["user"] :=
  Piece.spells_row [.word "user"]

/-- What is done with a named user is done with the cut name. -/
theorem eq_ofUser_of_requoted (keyword : Keyword) {options : Options}
    {statement result : Statement} {username : String} {ofKey ofUser : String → Statement}
    (hpieces : statement.pieces = [keyword.spelling, "user", quoted username])
    (hkeyword : Reading.statementAfter options (.keyword keyword) =
      Reading.keyOrUser ofKey ofUser)
    (hquotes : hasBothQuotes username.toList = true)
    (h : Statement.ofText options statement.canonical = .ok result) :
    result = ofUser (beforeQuote username) := by
  obtain ⟨start, position, more, sentence, rest, hsplit, haccepts⟩ :=
    exists_accepts_of_requoted keyword hpieces spells_user hquotes h
  rw [hkeyword] at haccepts
  rcases Reading.accepts_keyOrUser.1 haccepts with
    ⟨selector, user, rfl, -, rfl⟩ | ⟨key, rfl, huser, -, -⟩
  · -- the word `user`, and the cut string is the name
    simp only [Lexeme.tokensFrom, List.cons_append, List.cons.injEq] at hsplit
    obtain ⟨-, rfl, -⟩ := hsplit
    rfl
  · -- a key cannot have been read, because the word `user` was written
    obtain ⟨rfl, -⟩ := List.cons.inj hsplit
    exact absurd (Lexeme.text_token_small (by simp) _) huser

theorem cutOff_getUser {options : Options} {username : String} {result : Statement}
    (hquotes : hasBothQuotes username.toList = true)
    (h : Statement.ofText options (Statement.getUser username).canonical = .ok result) :
    result.kind = "get_user" ∧ CutOff [username] result.strings := by
  rw [eq_ofUser_of_requoted .get rfl rfl hquotes h]
  exact ⟨rfl, cutOff_singleton hquotes [] []⟩

theorem cutOff_deleteUser {options : Options} {username : String} {result : Statement}
    (hquotes : hasBothQuotes username.toList = true)
    (h : Statement.ofText options (Statement.deleteUser username).canonical = .ok result) :
    result.kind = "delete_user" ∧ CutOff [username] result.strings := by
  rw [eq_ofUser_of_requoted .delete rfl rfl hquotes h]
  exact ⟨rfl, cutOff_singleton hquotes [] []⟩

theorem cutOff_registerUser {options : Options} {username password : String}
    {permissions : List String} {active : Bool} {result : Statement}
    (hquotes : hasBothQuotes username.toList = true ∨ hasBothQuotes password.toList = true)
    (h : Statement.ofText options
      (Statement.registerUser username password permissions active).canonical = .ok result) :
    result.kind = "register_user" ∧
      CutOff [username, password, PermissionList.joined permissions] result.strings := by
  by_cases husername : hasBothQuotes username.toList = true
  · -- the name is cut, and nothing is known about what is read behind it
    obtain ⟨start, position, more, sentence, rest, hsplit, haccepts⟩ :=
      exists_accepts_of_requoted .register rfl spells_user husername h
    obtain ⟨userWord, user, secret, withWord, list, andWord, isWord, tail, names, flag, rfl, -, -,
      -, rfl⟩ := Reading.accepts_registerUser.1 haccepts
    simp only [Lexeme.tokensFrom, List.cons_append, List.cons.injEq] at hsplit
    obtain ⟨-, rfl, -⟩ := hsplit
    exact ⟨rfl, cutOff_singleton husername _ _⟩
  · -- the name is read as written, and the password is cut
    have husername : hasBothQuotes username.toList = false := Bool.eq_false_iff.2 husername
    have hpassword := hquotes.resolve_left (by simp [husername])
    have hfront : List.Forall₂ Lexeme.Spells [.bare "user", .between username]
        ["user", quoted username] :=
      Piece.spells_row [.word "user", .string username husername]
    obtain ⟨start, position, more, sentence, rest, hsplit, haccepts⟩ :=
      exists_accepts_of_requoted .register rfl hfront hpassword h
    obtain ⟨userWord, user, secret, withWord, list, andWord, isWord, tail, names, flag, rfl, -, -,
      -, rfl⟩ := Reading.accepts_registerUser.1 haccepts
    simp only [Lexeme.tokensFrom, List.cons_append, List.nil_append, List.cons.injEq] at hsplit
    obtain ⟨-, rfl, rfl, -⟩ := hsplit
    rw [Statement.strings, text_token_between]
    exact ⟨rfl, cutOff_cons husername (cutOff_singleton hpassword _ _)⟩

/-- Where the new content of a field follows the word `to`, it is the third token of the change. -/
theorem eq_of_changeForm {vocabulary : Vocabulary} {field : String} {slot : ParseError.Slot}
    {ofNew : String → UserChange}
    (hfield : Reading.change vocabulary field = do
      Reading.word "to"
      return ofNew (← Reading.text slot))
    {fieldToken joint new : Token} {tail more rest : List Token} {change : UserChange}
    (htext : fieldToken.text = field) (h : ChangeForm vocabulary tail change)
    (hsplit : fieldToken :: joint :: new :: more = tail ++ rest) : change = ofNew new.text := by
  obtain ⟨first, others, rfl⟩ : ∃ first others, tail = first :: others := by
    cases h <;> exact ⟨_, _, rfl⟩
  simp only [List.cons_append, List.cons.injEq] at hsplit
  obtain ⟨rfl, hrest⟩ := hsplit
  have haccepts := Reading.accepts_change.2 h
  rw [htext, hfield] at haccepts
  obtain ⟨second, tail, rfl, -, hnew⟩ := Reading.accepts_word_bind.1 haccepts
  obtain ⟨third, tail, rfl, hdone⟩ := Reading.accepts_text_bind.1 hnew
  simp only [List.cons_append, List.cons.injEq] at hrest
  obtain ⟨-, rfl, -⟩ := hrest
  exact (Reading.accepts_pure.1 hdone).2

theorem text_token_field (change : UserChange) (position : Nat) :
    ((Lexeme.bare change.field).token position).text = change.field := by
  apply Lexeme.text_token_small
  cases change <;> simp [UserChange.field]

/-- A change that puts a cut string into a field, where the name of the user is as written. -/
theorem eq_updateUser_of_requoted {options : Options} {username text : String}
    {change : UserChange} {slot : ParseError.Slot} {ofNew : String → UserChange}
    {result : Statement} (hpieces : change.pieces = ["to", quoted text])
    (hfield : Reading.change options.vocabulary change.field = do
      Reading.word "to"
      return ofNew (← Reading.text slot))
    (husername : hasBothQuotes username.toList = false)
    (hquotes : hasBothQuotes text.toList = true)
    (h : Statement.ofText options (Statement.updateUser username change).canonical =
      .ok result) :
    result = .updateUser username (ofNew (beforeQuote text)) := by
  have hwhole : (Statement.updateUser username change).pieces = Keyword.update.spelling ::
      ["user", quoted username, "set", change.field, "to"] ++ quoted text :: [] := by
    rw [Statement.pieces, hpieces]
    rfl
  have hfront : List.Forall₂ Lexeme.Spells
      [.bare "user", .between username, .bare "set", .bare change.field, .bare "to"]
      ["user", quoted username, "set", change.field, "to"] :=
    Piece.spells_row [.word "user", .string username husername, .word "set",
      .word change.field (isKeyName_field change), .word "to"]
  obtain ⟨start, position, more, sentence, rest, hsplit, haccepts⟩ :=
    exists_accepts_of_requoted .update hwhole hfront hquotes h
  obtain ⟨selector, user, setter, tail, changed, rfl, -, -, hform, rfl⟩ :=
    Reading.accepts_updateUser.1 haccepts
  simp only [Lexeme.tokensFrom, List.cons_append, List.nil_append, List.cons.injEq] at hsplit
  obtain ⟨-, rfl, -, hrest⟩ := hsplit
  rw [eq_of_changeForm hfield (text_token_field change _) hform hrest, text_token_between]

theorem cutOff_updateUser {options : Options} {username : String} {change : UserChange}
    {result : Statement}
    (hnames : ∀ names, change = .permissions names →
      hasBothQuotes (PermissionList.joined names).toList = false)
    (hquotes : ∃ text ∈ username :: change.strings, hasBothQuotes text.toList = true)
    (h : Statement.ofText options (Statement.updateUser username change).canonical =
      .ok result) :
    result.kind = "update_user" ∧ CutOff (username :: change.strings) result.strings := by
  by_cases husername : hasBothQuotes username.toList = true
  · obtain ⟨start, position, more, sentence, rest, hsplit, haccepts⟩ :=
      exists_accepts_of_requoted .update rfl spells_user husername h
    obtain ⟨selector, user, setter, tail, changed, rfl, -, -, -, rfl⟩ :=
      Reading.accepts_updateUser.1 haccepts
    simp only [Lexeme.tokensFrom, List.cons_append, List.cons.injEq] at hsplit
    obtain ⟨-, rfl, -⟩ := hsplit
    exact ⟨rfl, cutOff_singleton husername _ _⟩
  · -- the name is in order, so the string with both quotes is the new content of the field
    have husername : hasBothQuotes username.toList = false := Bool.eq_false_iff.2 husername
    rcases hquotes with ⟨text, htext, hboth⟩
    have hchange : text ∈ change.strings := by
      rcases List.mem_cons.1 htext with rfl | hchange
      · exact absurd hboth (by simp [husername])
      · exact hchange
    cases change with
    | password new =>
      obtain rfl := List.mem_singleton.1 hchange
      rw [eq_updateUser_of_requoted rfl rfl husername hboth h]
      exact ⟨rfl, cutOff_cons husername (cutOff_singleton hboth [] [])⟩
    | username new =>
      obtain rfl := List.mem_singleton.1 hchange
      rw [eq_updateUser_of_requoted rfl rfl husername hboth h]
      exact ⟨rfl, cutOff_cons husername (cutOff_singleton hboth [] [])⟩
    | permissions names =>
      obtain rfl := List.mem_singleton.1 hchange
      exact absurd hboth (by simp [hnames names rfl])
    | active flag => exact absurd hchange (by simp [UserChange.strings])

/-- What is read from the text of a plain statement with such a string is of its kind, and has the
    string cut off. -/
theorem cutOff_of_requoted {options : Options} {statement result : Statement}
    (hplain : statement.Plain)
    (hquotes : ∃ text ∈ statement.strings, hasBothQuotes text.toList = true)
    (h : Statement.ofText options statement.canonical = .ok result) :
    result.kind = statement.kind ∧ CutOff statement.strings result.strings := by
  have ⟨text, htext, hboth⟩ := hquotes
  cases statement with
  | put key value =>
    cases value with
    | string written =>
      obtain rfl := List.mem_singleton.1 htext
      exact cutOff_put hboth h
    | int | float | bool => exact absurd htext (by simp [Statement.strings])
  | registerUser username password permissions active =>
    have hjoined := (readable_of_plain hplain rfl).quotable
    refine cutOff_registerUser ?_ h
    simp only [Statement.strings, List.mem_cons, List.not_mem_nil, or_false] at htext
    rcases htext with rfl | rfl | rfl
    · exact Or.inl hboth
    · exact Or.inr hboth
    · exact absurd hboth (by simp [hjoined])  -- standard permissions have no quotes
  | updateUser username change =>
    refine cutOff_updateUser ?_ hquotes h
    rintro names rfl
    exact (readable_of_plain hplain rfl).quotable
  | getUser username =>
    obtain rfl := List.mem_singleton.1 htext
    exact cutOff_getUser hboth h
  | deleteUser username =>
    obtain rfl := List.mem_singleton.1 htext
    exact cutOff_deleteUser hboth h
  | get | delete | listUsers => exact absurd htext (by simp [Statement.strings])

/-! ### Canonical texts of plain statements -/

/-- What was read is no statement with such a string, not even up to equality of numbers. -/
theorem not_same_of_requoted {options : Options} {statement result : Statement} {text : String}
    (hquotes : ∃ text ∈ statement.strings, hasBothQuotes text.toList = true)
    (h : Statement.ofText options text = .ok result) : result.same statement = false := by
  rcases hquotes with ⟨string, hstring, hboth⟩
  have hexpressible := expressible_of_ofText h
  apply Bool.eq_false_iff.2
  intro hsame
  -- equal statements are the same, or the written one stores a number and has no strings
  rcases Statement.eq_or_negative hexpressible hsame with rfl | ⟨key, m, rfl⟩
  · have hnot := hasBothQuotes_of_expressible hexpressible hstring
    exact absurd hboth (by simp [hnot])
  · exact absurd hstring (by simp [Statement.strings])

/-- A plain statement without a string that holds both quotes is read as itself, or its number has
    no text and the canonical text no tokens. -/
theorem ofText_of_plain {statement : Statement} (h : statement.Plain)
    (hquotes : ∀ text ∈ statement.strings, hasBothQuotes text.toList = false) :
    (Statement.ofText {} statement.canonical = .ok statement ∧ statement.same statement = true) ∨
      ∃ error, Statement.ofText {} statement.canonical = .error (.scan error) := by
  rcases expressible_of_plain h hquotes with hexpressible | ⟨key, value, rfl, hvalue, hstring⟩
  · exact Or.inl ⟨ofText_of_expressible hexpressible (not_keyFolds_of_plain h),
      Statement.same_self hexpressible⟩
  · obtain ⟨error, herror⟩ : ∃ error, tokenize (Statement.put key value).canonical = .error error :=
      exists_scan_error hvalue hstring
    exact Or.inr ⟨error, by rw [Statement.ofText, herror]⟩

/-- A plain statement whose strings do without one of the two quotes is read as itself or not at
    all.  With other strings it is never read as itself, and if a statement is read, then it is of
    the same kind and has the first of these strings cut off. -/
theorem ofText_canonical_of_plain {statement : Statement} (h : statement.Plain) :
    ((∀ text ∈ statement.strings, hasBothQuotes text.toList = false) →
      (Statement.ofText {} statement.canonical = .ok statement ∧
        statement.same statement = true) ∨
      ∃ error, Statement.ofText {} statement.canonical = .error error) ∧
    ((∃ text ∈ statement.strings, hasBothQuotes text.toList = true) →
      (∃ error, Statement.ofText {} statement.canonical = .error error) ∨
      ∃ result, Statement.ofText {} statement.canonical = .ok result ∧
        result.same statement = false ∧ result.kind = statement.kind ∧
        CutOff statement.strings result.strings) := by
  constructor
  · intro hquotes
    rcases ofText_of_plain h hquotes with hself | ⟨error, herror⟩
    · exact Or.inl hself
    · exact Or.inr ⟨.scan error, herror⟩
  · intro hquotes
    cases hread : Statement.ofText {} statement.canonical with
    | error error => exact Or.inl ⟨error, rfl⟩
    | ok result =>
      rcases cutOff_of_requoted h hquotes hread with ⟨hkind, hcut⟩
      exact Or.inr ⟨result, rfl, not_same_of_requoted hquotes hread, hkind, hcut⟩

theorem plain_getUser (username : String) : (Statement.getUser username).Plain where
  key key hkey := absurd hkey (by simp [Statement.key?])
  permissions names hnames := absurd hnames (by simp [Statement.permissions?])

theorem plain_registerUser {username password : String} {permissions : List String} {active : Bool}
    (hnone : nonePermission ∉ permissions)
    (hknown : ∀ name ∈ permissions, Vocabulary.standard.knows name = true) :
    (Statement.registerUser username password permissions active).Plain where
  key key hkey := absurd hkey (by simp [Statement.key?])
  permissions names hnames := by
    obtain rfl := Option.some.inj hnames
    exact Or.inr ⟨hnone, hknown⟩

theorem ofText_canonical_of_plain_users :
    ((Statement.registerUser "it's" "a b" ["read", "add", "read"] true).Plain ∧
      (∀ text ∈ ["it's", "a b", "read,add,read"], hasBothQuotes text.toList = false) ∧
      ((Statement.ofText {} (Statement.registerUser "it's" "a b" ["read", "add", "read"]
          true).canonical = .ok (.registerUser "it's" "a b" ["read", "add", "read"] true) ∧
        (Statement.registerUser "it's" "a b" ["read", "add", "read"] true).same
          (.registerUser "it's" "a b" ["read", "add", "read"] true) = true) ∨
        ∃ error, Statement.ofText {} (Statement.registerUser "it's" "a b" ["read", "add", "read"]
          true).canonical = .error error)) ∧
    ((Statement.getUser "x\" 'y' \"z").Plain ∧
      (∃ text ∈ (Statement.getUser "x\" 'y' \"z").strings, hasBothQuotes text.toList = true) ∧
      ((∃ error, Statement.ofText {} (Statement.getUser "x\" 'y' \"z").canonical =
          .error error) ∨
        ∃ result, Statement.ofText {} (Statement.getUser "x\" 'y' \"z").canonical = .ok result ∧
          result.same (.getUser "x\" 'y' \"z") = false ∧ result.kind = "get_user" ∧
          CutOff ["x\" 'y' \"z"] result.strings)) := by
  have hregister : (Statement.registerUser "it's" "a b" ["read", "add", "read"] true).Plain :=
    plain_registerUser (by decide) (by decide +kernel)
  have hstrings : ∀ text ∈ ["it's", "a b", "read,add,read"],
      hasBothQuotes text.toList = false := by decide +kernel
  have hget := plain_getUser "x\" 'y' \"z"
  have hquotes : ∃ text ∈ (Statement.getUser "x\" 'y' \"z").strings,
      hasBothQuotes text.toList = true := ⟨_, List.mem_singleton_self _, by decide⟩
  exact ⟨⟨hregister, hstrings, (ofText_canonical_of_plain hregister).1 hstrings⟩, hget, hquotes,
    (ofText_canonical_of_plain hget).2 hquotes⟩

/-- A name that closes its own quote and opens the last one again is read as its beginning. -/
theorem ofText_canonical_requoted :
    (Statement.getUser "x\" 'y' \"z").Plain ∧
      hasBothQuotes "x\" 'y' \"z".toList = true ∧
      Statement.ofText {} (Statement.getUser "x\" 'y' \"z").canonical = .ok (.getUser "x") ∧
      (Statement.getUser "x").same (.getUser "x\" 'y' \"z") = false :=
  ⟨plain_getUser _, by decide, by decide +kernel, by decide⟩

end StoreCommand
