import StoreCommand.Proofs.Statement.Expressible

/-!
# Statements read from their canonical text

The pieces of an expressible statement are spelled by lexemes, and the tokens of these lexemes are a
sentence that denotes the statement, but for one detail: a key is written as a bare word, and a bare
word that is a keyword in lower case is read in lower case.
-/

namespace StoreCommand

/-! ### Sentences of canonical texts -/

/-- A row of lexemes is read as what a sentence in front of their tokens denotes. -/
theorem ofText_intercalate_of_append {options : Options} {result : Statement}
    {lexemes : List Lexeme} {pieces : List String} {sentence rest : List Token}
    (hpieces : List.Forall₂ Lexeme.Spells lexemes pieces)
    (htokens : Lexeme.tokensFrom 0 lexemes = sentence ++ rest)
    (hform : Form options sentence result) :
    Statement.ofText options (" ".intercalate pieces) = .ok result := by
  refine ofText_eq_ok_iff.2 ⟨sentence, rest, ?_, hform⟩
  rw [← htokens]
  exact tokenize_intercalate hpieces

theorem ofText_intercalate {options : Options} {result : Statement} {lexemes : List Lexeme}
    {pieces : List String} (hpieces : List.Forall₂ Lexeme.Spells lexemes pieces)
    (hform : Form options (Lexeme.tokensFrom 0 lexemes) result) :
    Statement.ofText options (" ".intercalate pieces) = .ok result :=
  ofText_intercalate_of_append hpieces (List.append_nil _).symm hform

theorem kind_token_bare (keyword : Keyword) (position : Nat) :
    ((Lexeme.bare keyword.spelling).token position).kind = .keyword keyword := by
  rw [Lexeme.token_bare_keyword]

theorem text_token_between (text : String) (position : Nat) :
    ((Lexeme.between text).token position).text = text := by
  rw [Lexeme.token_between]

/-! ### Keys -/

theorem isKeyName_token {key : String} (h : isKeyName key = true) (position : Nat) :
    isKeyName ((Lexeme.bare key).token position).text = true := by
  rw [Lexeme.text_token_bare]
  exact isKeyName_bareText h

theorem ofText_put {options : Options} {key : String} {value : Value}
    (hkey : isKeyName key = true) (hvalue : value.Expressible) :
    Statement.ofText options (Statement.put key value).canonical =
      .ok (.put (bareText key) value) := by
  rcases Value.exists_lexeme hvalue with ⟨lexeme, hspells, hread⟩
  have hpieces : List.Forall₂ Lexeme.Spells [.bare "put", lexeme, .bare "in", .bare key]
      (Statement.put key value).pieces :=
    Piece.spells_row [.word "put", ⟨lexeme, _, hspells⟩, .word "in", .word key hkey]
  have hform : Form options (Lexeme.tokensFrom 0 [.bare "put", lexeme, .bare "in", .bare key]) _ :=
    .put (kind_token_bare .put _) (Lexeme.text_token_small (by simp) _)
      (isKeyName_token hkey _)
  rw [Lexeme.text_token_bare, hread] at hform
  exact ofText_intercalate hpieces hform

theorem ofTokens_keyOrUser {options : Options} {first selector : Token}
    {ofKey ofUser : String → Statement}
    (hfirst : Reading.statementAfter options first.kind = Reading.keyOrUser ofKey ofUser)
    (hkey : isKeyName selector.text = true) :
    Statement.ofTokens options [first, selector] =
      if selector.text = "user" then .error ⟨.missing .username, none⟩
      else .ok (ofKey selector.text) := by
  have hstep : (Reading.keyOrUser ofKey ofUser).runAfter (some first.position) [selector] =
      (if selector.text = "user" then do return ofUser (← Reading.text .username)
        else do return ofKey (← Reading.keyNamed selector.text)).runAfter
          (some selector.position) [] := rfl
  rw [Statement.ofTokens, Reading.run, Reading.statement, Reading.runAfter_next_cons, hfirst, hstep]
  by_cases huser : selector.text = "user"
  · -- taken for the start of a command about a user, whose name is missing
    rw [if_pos huser, if_pos huser]
    rfl
  · rw [if_neg huser, if_neg huser, Reading.keyNamed, if_pos hkey]
    rfl

theorem ofText_keyOrUser (keyword : Keyword) {options : Options} {statement : Statement}
    {key : String} {ofKey ofUser : String → Statement}
    (hpieces : statement.pieces = [keyword.spelling, key])
    (hkeyword : Reading.statementAfter options (.keyword keyword) =
      Reading.keyOrUser ofKey ofUser)
    (hkey : isKeyName key = true) :
    Statement.ofText options statement.canonical =
      if bareText key = "user" then .error (.parse ⟨.missing .username, none⟩)
      else .ok (ofKey (bareText key)) := by
  have hspells : List.Forall₂ Lexeme.Spells [.bare keyword.spelling, .bare key]
      statement.pieces := by
    rw [hpieces]
    exact Piece.spells_row [.keyword keyword, .word key hkey]
  have hfirst : ∀ position, Reading.statementAfter options
      ((Lexeme.bare keyword.spelling).token position).kind = Reading.keyOrUser ofKey ofUser := by
    intro position
    rw [kind_token_bare, hkeyword]
  have hrun := ofTokens_keyOrUser (hfirst 0)
    (isKeyName_token hkey (0 + (Lexeme.bare keyword.spelling).spelling.length + 1))
  rw [Lexeme.text_token_bare] at hrun
  rw [Statement.ofText, Statement.canonical, tokenize_intercalate hspells, Lexeme.tokensFrom,
    Lexeme.tokensFrom, Lexeme.tokensFrom]
  simp only [hrun]
  by_cases huser : bareText key = "user"
  · rw [if_pos huser, if_pos huser]
  · rw [if_neg huser, if_neg huser]

theorem ofText_get {options : Options} {key : String} (hkey : isKeyName key = true) :
    Statement.ofText options (Statement.get key).canonical =
      if bareText key = "user" then .error (.parse ⟨.missing .username, none⟩)
      else .ok (.get (bareText key)) :=
  ofText_keyOrUser .get rfl rfl hkey

theorem ofText_delete {options : Options} {key : String} (hkey : isKeyName key = true) :
    Statement.ofText options (Statement.delete key).canonical =
      if bareText key = "user" then .error (.parse ⟨.missing .username, none⟩)
      else .ok (.delete (bareText key)) :=
  ofText_keyOrUser .delete rfl rfl hkey

/-! ### Users -/

/-- What is done with a named user is read from the keyword, the word `user` and the name. -/
theorem ofText_userNamed (keyword : Keyword) {options : Options} {statement : Statement}
    {username : String} {ofUser : String → Statement}
    (hpieces : statement.pieces = [keyword.spelling, "user", quoted username])
    (hform : ∀ first selector user : Token, first.kind = .keyword keyword →
      selector.text = "user" → Form options [first, selector, user] (ofUser user.text))
    (husername : hasBothQuotes username.toList = false) :
    Statement.ofText options statement.canonical = .ok (ofUser username) := by
  have hspells : List.Forall₂ Lexeme.Spells
      [.bare keyword.spelling, .bare "user", .between username] statement.pieces := by
    rw [hpieces]
    exact Piece.spells_row [.keyword keyword, .word "user", .string username husername]
  have hsentence : Form options
      (Lexeme.tokensFrom 0 [.bare keyword.spelling, .bare "user", .between username]) _ :=
    hform _ _ _ (kind_token_bare keyword _) (Lexeme.text_token_small (by simp) _)
  rw [text_token_between] at hsentence
  exact ofText_intercalate hspells hsentence

theorem ofText_getUser {options : Options} {username : String}
    (husername : hasBothQuotes username.toList = false) :
    Statement.ofText options (Statement.getUser username).canonical = .ok (.getUser username) := by
  apply ofText_userNamed .get rfl _ husername
  intro first selector user hfirst huser
  exact .getUser hfirst huser

theorem ofText_deleteUser {options : Options} {username : String}
    (husername : hasBothQuotes username.toList = false) :
    Statement.ofText options (Statement.deleteUser username).canonical =
      .ok (.deleteUser username) := by
  apply ofText_userNamed .delete rfl _ husername
  intro first selector user hfirst huser
  exact .deleteUser hfirst huser

theorem ofText_listUsers {options : Options} :
    Statement.ofText options Statement.listUsers.canonical = .ok .listUsers := by
  have hpieces : List.Forall₂ Lexeme.Spells [.bare "list", .bare "users"]
      Statement.listUsers.pieces :=
    Piece.spells_row [.word "list", .word "users"]
  have hform : Form options (Lexeme.tokensFrom 0 [.bare "list", .bare "users"]) _ :=
    .listUsers (kind_token_bare .list _) (Lexeme.text_token_small (by simp) _)
  exact ofText_intercalate hpieces hform

/-- The pieces of a change are spelled by lexemes whose tokens denote the change, wherever they
    stand. -/
theorem exists_changeForm {vocabulary : Vocabulary} {change : UserChange}
    (h : change.Expressible vocabulary) :
    ∃ lexemes, List.Forall₂ Lexeme.Spells lexemes (change.field :: change.pieces) ∧
      ∀ position, ChangeForm vocabulary (Lexeme.tokensFrom position lexemes) change := by
  cases change with
  | password new =>
    refine ⟨[.bare "password", .bare "to", .between new],
      Piece.spells_row [.word "password", .word "to", .string new h], ?_⟩
    intro position
    have hform : ChangeForm vocabulary
        (Lexeme.tokensFrom position [.bare "password", .bare "to", .between new]) _ :=
      .password (Lexeme.text_token_small (by simp) _) (Lexeme.text_token_small (by simp) _)
    rwa [text_token_between] at hform
  | username new =>
    refine ⟨[.bare "username", .bare "to", .between new],
      Piece.spells_row [.word "username", .word "to", .string new h], ?_⟩
    intro position
    have hform : ChangeForm vocabulary
        (Lexeme.tokensFrom position [.bare "username", .bare "to", .between new]) _ :=
      .username (Lexeme.text_token_small (by simp) _) (Lexeme.text_token_small (by simp) _)
    rwa [text_token_between] at hform
  | permissions names =>
    -- the one change whose text is more than its words and strings
    refine ⟨[.bare "permissions", .between (PermissionList.joined names)],
      Piece.spells_row [.word "permissions", .string _ h.quotable],
      fun position => .permissions (Lexeme.text_token_small (by simp) _) ?_⟩
    rw [text_token_between]
    exact PermissionList.grants_joined h
  | active flag =>
    cases flag with
    | true =>
      exact ⟨[.bare "active", .bare "true"], Piece.spells_row [.word "active", .word "true"],
        fun position => .active (Lexeme.text_token_small (by simp) _)
          (Lexeme.text_token_small (by simp) _)⟩
    | false =>
      exact ⟨[.bare "active", .bare "false"], Piece.spells_row [.word "active", .word "false"],
        fun position => .inactive (Lexeme.text_token_small (by simp) _)
          (Lexeme.text_token_small (by simp) _)⟩

/-- A change of a user is read as what the lexemes of the change denote. -/
theorem ofText_updateUser_of_changeForm {options : Options} {username : String}
    {change result : UserChange} {lexemes : List Lexeme}
    (husername : hasBothQuotes username.toList = false)
    (hspells : List.Forall₂ Lexeme.Spells lexemes (change.field :: change.pieces))
    (hchanged : ∀ position,
      ChangeForm options.vocabulary (Lexeme.tokensFrom position lexemes) result) :
    Statement.ofText options (Statement.updateUser username change).canonical =
      .ok (.updateUser username result) := by
  have hpieces : List.Forall₂ Lexeme.Spells
      (.bare "update" :: .bare "user" :: .between username :: .bare "set" :: lexemes)
      (Statement.updateUser username change).pieces :=
    Piece.spells_row_append
      [.word "update", .word "user", .string username husername, .word "set"] hspells
  have hform : Form options (Lexeme.tokensFrom 0
      (.bare "update" :: .bare "user" :: .between username :: .bare "set" :: lexemes)) _ :=
    .updateUser (kind_token_bare .update _) (Lexeme.text_token_small (by simp) _)
      (Lexeme.text_token_small (by simp) _) (hchanged _)
  rw [text_token_between] at hform
  exact ofText_intercalate hpieces hform

theorem ofText_updateUser {options : Options} {username : String} {change : UserChange}
    (husername : hasBothQuotes username.toList = false)
    (hchange : change.Expressible options.vocabulary) :
    Statement.ofText options (Statement.updateUser username change).canonical =
      .ok (.updateUser username change) := by
  rcases exists_changeForm hchange with ⟨lexemes, hspells, hchanged⟩
  exact ofText_updateUser_of_changeForm husername hspells hchanged

/-- The words for the state of a new user begin with a form of this state.  Lenient options stop
    after the word `not`. -/
theorem exists_flagForm (strict active : Bool) :
    ∃ lexemes,
      List.Forall₂ Lexeme.Spells lexemes (if active then ["active"] else ["not", "active"]) ∧
      ∀ position, ∃ sentence rest, Lexeme.tokensFrom position lexemes = sentence ++ rest ∧
        FlagForm strict sentence active := by
  have hactive : ∀ position, ((Lexeme.bare "active").token position).text = "active" :=
    Lexeme.text_token_small (by simp)
  have hnot : ∀ position, ((Lexeme.bare "not").token position).text = "not" :=
    Lexeme.text_token_small (by simp)
  cases active with
  | true =>
    refine ⟨[.bare "active"], Piece.spells_row [.word "active"], ?_⟩
    intro position
    refine ⟨_, [], (List.append_nil _).symm, ?_⟩
    cases strict with
    | true => exact .active rfl (hactive _)
    | false =>
      have hform : FlagForm false (Lexeme.tokensFrom position [.bare "active"]) _ := .lenient rfl
      rwa [hactive] at hform
  | false =>
    refine ⟨[.bare "not", .bare "active"], Piece.spells_row [.word "not", .word "active"], ?_⟩
    intro position
    cases strict with
    | true => exact ⟨_, [], (List.append_nil _).symm, .inactive rfl (hnot _) (hactive _)⟩
    | false =>
      -- `not` is any word but `active`, and `active` is left over
      refine ⟨[(Lexeme.bare "not").token position], _, rfl, ?_⟩
      have hform : FlagForm false [(Lexeme.bare "not").token position] _ := .lenient rfl
      rwa [hnot] at hform

def registrationFront (username password : String) (permissions : List String) : List Lexeme :=
  [.bare "register", .bare "user", .between username, .between password, .bare "with",
    .between (PermissionList.joined permissions), .bare "and", .bare "is"]

/-- A registration is read with the permissions that the text of its list grants. -/
theorem ofText_registerUser_of_grants {options : Options} {username password : String}
    {permissions granted : List String} (active : Bool)
    (husername : hasBothQuotes username.toList = false)
    (hpassword : hasBothQuotes password.toList = false)
    (hpermissions : hasBothQuotes (PermissionList.joined permissions).toList = false)
    (hgranted : PermissionList.Grants options.vocabulary (PermissionList.joined permissions)
      granted) :
    Statement.ofText options
        (Statement.registerUser username password permissions active).canonical =
      .ok (.registerUser username password granted active) := by
  rcases exists_flagForm options.strict active with ⟨lexemes, hspells, hflag⟩
  have hpieces : List.Forall₂ Lexeme.Spells
      (registrationFront username password permissions ++ lexemes)
      (Statement.registerUser username password permissions active).pieces :=
    Piece.spells_row_append
      [.word "register", .word "user", .string username husername, .string password hpassword,
        .word "with", .string _ hpermissions, .word "and", .word "is"] hspells
  -- where the last words begin does not matter, but lenient options may leave the last one unread
  have hsplit := Lexeme.tokensFrom_append
    (registrationFront username password permissions) lexemes 0
  rcases hflag _ with ⟨sentence, rest, htokens, hflagged⟩
  rw [htokens, ← List.append_assoc] at hsplit
  have hgrants : ∀ position, PermissionList.Grants options.vocabulary
      ((Lexeme.between (PermissionList.joined permissions)).token position).text granted := by
    intro position
    rwa [text_token_between]
  have hform : Form options
      (Lexeme.tokensFrom 0 (registrationFront username password permissions) ++ sentence) _ :=
    .registerUser (kind_token_bare .register _)
      (fun _ => ⟨Lexeme.text_token_small (by simp) _, Lexeme.text_token_small (by simp) _,
        Lexeme.text_token_small (by simp) _, Lexeme.text_token_small (by simp) _⟩)
      (hgrants _) hflagged
  rw [text_token_between, text_token_between] at hform
  exact ofText_intercalate_of_append hpieces hsplit hform

theorem ofText_registerUser {options : Options} {username password : String}
    {permissions : List String} (active : Bool)
    (husername : hasBothQuotes username.toList = false)
    (hpassword : hasBothQuotes password.toList = false)
    (hpermissions : PermissionList.Readable options.vocabulary permissions) :
    Statement.ofText options
        (Statement.registerUser username password permissions active).canonical =
      .ok (.registerUser username password permissions active) :=
  ofText_registerUser_of_grants active husername hpassword hpermissions.quotable
    (PermissionList.grants_joined hpermissions)

end StoreCommand
