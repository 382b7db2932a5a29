import StoreCommand.Proofs.Permission.Entries
import StoreCommand.Proofs.Statement.Sentence

/-!
# The forms of statements

The language has few forms of sentences, and each can be written down as the tokens it consists of.
`Form` lists them.  The first token is recognised by its kind; every other fixed word is recognised
by its text and may be a token of any kind; and all other places are free.  The grammar of readings
accepts these sentences and no others (`accepts_statement_iff`), so a list of tokens is read as a
statement exactly if it begins with a sentence of that statement.
-/

namespace StoreCommand

/-! ### Forms -/

/-- What may follow the word `set`, and the change that it denotes. -/
inductive ChangeForm (vocabulary : Vocabulary) : List Token → UserChange → Prop where
  | password {field joint new : Token} (isField : field.text = "password")
      (isTo : joint.text = "to") :
      ChangeForm vocabulary [field, joint, new] (.password new.text)
  | username {field joint new : Token} (isField : field.text = "username")
      (isTo : joint.text = "to") :
      ChangeForm vocabulary [field, joint, new] (.username new.text)
  | permissions {field list : Token} {names : List String} (isField : field.text = "permissions")
      (granted : PermissionList.Grants vocabulary list.text names) :
      ChangeForm vocabulary [field, list] (.permissions names)
  | active {field flag : Token} (isField : field.text = "active") (isTrue : flag.text = "true") :
      ChangeForm vocabulary [field, flag] (.active true)
  | inactive {field flag : Token} (isField : field.text = "active")
      (isFalse : flag.text = "false") :
      ChangeForm vocabulary [field, flag] (.active false)

/-- The four connecting words of a registration, of which only strict options look at the text. -/
def Connected (strict : Bool) (userWord withWord andWord isWord : Token) : Prop :=
  strict = true → userWord.text = "user" ∧ withWord.text = "with" ∧ andWord.text = "and" ∧
    isWord.text = "is"

/-- How the state of a new user is written.  Lenient options take any token, and strict options
    want `active` or `not active`. -/
inductive FlagForm (strict : Bool) : List Token → Bool → Prop where
  | lenient {flag : Token} (isLenient : strict = false) :
      FlagForm strict [flag] (decide (flag.text = "active"))
  | active {flag : Token} (isStrict : strict = true) (isActive : flag.text = "active") :
      FlagForm strict [flag] true
  | inactive {negation flag : Token} (isStrict : strict = true) (isNot : negation.text = "not")
      (isActive : flag.text = "active") : FlagForm strict [negation, flag] false

/-- `Form options sentence statement`: the tokens are a sentence of the language that denotes
    `statement`. -/
inductive Form (options : Options) : List Token → Statement → Prop where
  | put {first value joint key : Token} (isPut : first.kind = .keyword .put)
      (isIn : joint.text = "in") (isKey : isKeyName key.text = true) :
      Form options [first, value, joint, key] (.put key.text (Value.ofToken value))
  | getUser {first selector user : Token} (isGet : first.kind = .keyword .get)
      (isUser : selector.text = "user") :
      Form options [first, selector, user] (.getUser user.text)
  | get {first key : Token} (isGet : first.kind = .keyword .get) (notUser : key.text ≠ "user")
      (isKey : isKeyName key.text = true) : Form options [first, key] (.get key.text)
  | deleteUser {first selector user : Token} (isDelete : first.kind = .keyword .delete)
      (isUser : selector.text = "user") :
      Form options [first, selector, user] (.deleteUser user.text)
  | delete {first key : Token} (isDelete : first.kind = .keyword .delete)
      (notUser : key.text ≠ "user") (isKey : isKeyName key.text = true) :
      Form options [first, key] (.delete key.text)
  | listUsers {first noun : Token} (isList : first.kind = .keyword .list)
      (isUsers : noun.text = "users") : Form options [first, noun] .listUsers
  | updateUser {first selector user setter : Token} {tail : List Token} {change : UserChange}
      (isUpdate : first.kind = .keyword .update) (isUser : selector.text = "user")
      (isSet : setter.text = "set") (changed : ChangeForm options.vocabulary tail change) :
      Form options (first :: selector :: user :: setter :: tail) (.updateUser user.text change)
  | registerUser {first userWord user password withWord list andWord isWord : Token}
      {tail : List Token} {names : List String} {active : Bool}
      (isRegister : first.kind = .keyword .register)
      (connected : Connected options.strict userWord withWord andWord isWord)
      (granted : PermissionList.Grants options.vocabulary list.text names)
      (flagged : FlagForm options.strict tail active) :
      Form options
        (first :: userWord :: user :: password :: withWord :: list :: andWord :: isWord :: tail)
        (.registerUser user.text password.text names active)

namespace Reading

/-! ### Parts -/

theorem accepts_keyNamed {found : String} {sentence : List Token} {result : String} :
    Accepts (keyNamed found) sentence result ↔
      sentence = [] ∧ result = found ∧ isKeyName found = true := by
  unfold keyNamed
  split
  · rename_i hkey
    simp [hkey]
  · rename_i hkey
    simp [hkey]

theorem accepts_key {sentence : List Token} {result : String} :
    Accepts key sentence result ↔
      ∃ token, sentence = [token] ∧ result = token.text ∧ isKeyName token.text = true := by
  unfold key
  rw [accepts_text_bind]
  constructor
  · rintro ⟨token, rest, rfl, h⟩
    obtain ⟨rfl, hresult, hkey⟩ := accepts_keyNamed.1 h
    exact ⟨token, rfl, hresult, hkey⟩
  · rintro ⟨token, rfl, hresult, hkey⟩
    exact ⟨token, [], rfl, accepts_keyNamed.2 ⟨rfl, hresult, hkey⟩⟩

theorem accepts_permissions {vocabulary : Vocabulary} {sentence : List Token}
    {names : List String} :
    Accepts (permissions vocabulary) sentence names ↔
      ∃ token, sentence = [token] ∧ PermissionList.Grants vocabulary token.text names := by
  unfold permissions
  rw [accepts_text_bind]
  constructor
  · rintro ⟨token, rest, rfl, h⟩
    split at h
    · rename_i granted hread
      obtain ⟨rfl, rfl⟩ := accepts_done.1 h
      exact ⟨token, rfl, PermissionList.read_eq_ok_iff.1 hread⟩
    · exact absurd h not_accepts_refused
  · rintro ⟨token, rfl, hgranted⟩
    refine ⟨token, [], rfl, ?_⟩
    rw [PermissionList.read_eq_ok_iff.2 hgranted]
    exact .done names

theorem accepts_truthValue {sentence : List Token} {result : Bool} :
    Accepts truthValue sentence result ↔
      ∃ token, sentence = [token] ∧
        (token.text = "true" ∧ result = true ∨ token.text = "false" ∧ result = false) := by
  unfold truthValue
  rw [accepts_text_bind]
  constructor
  · rintro ⟨token, rest, rfl, h⟩
    split at h
    · rename_i htrue
      obtain ⟨rfl, rfl⟩ := accepts_done.1 h
      exact ⟨token, rfl, Or.inl ⟨htrue, rfl⟩⟩
    · split at h
      · rename_i hfalse
        obtain ⟨rfl, rfl⟩ := accepts_done.1 h
        exact ⟨token, rfl, Or.inr ⟨hfalse, rfl⟩⟩
      · exact absurd h not_accepts_refused
  · rintro ⟨token, rfl, ⟨htext, rfl⟩ | ⟨htext, rfl⟩⟩
    · exact ⟨token, [], rfl, by simp [htext]⟩
    · exact ⟨token, [], rfl, by simp [htext]⟩

theorem accepts_activeFlag {strict : Bool} {sentence : List Token} {result : Bool} :
    Accepts (activeFlag strict) sentence result ↔ FlagForm strict sentence result := by
  cases strict with
  | false =>
    -- one token, whatever it says
    have hlenient : activeFlag false = lenientFlag := rfl
    rw [hlenient, lenientFlag, accepts_text_bind]
    constructor
    · rintro ⟨token, rest, rfl, h⟩
      obtain ⟨rfl, rfl⟩ := accepts_pure.1 h
      exact .lenient rfl
    · intro h
      cases h with
      | lenient => exact ⟨_, [], rfl, .done _⟩
      | active isStrict => exact absurd isStrict (by decide)
      | inactive isStrict => exact absurd isStrict (by decide)
  | true =>
    have hstrict : activeFlag true = strictFlag := rfl
    rw [hstrict, strictFlag, accepts_text_bind]
    constructor
    · rintro ⟨token, rest, rfl, h⟩
      split at h
      · -- `not` wants one more token
        rename_i hnot
        obtain ⟨flag, tail, rfl, hactive, hdone⟩ := accepts_word_bind.1 h
        obtain ⟨rfl, rfl⟩ := accepts_pure.1 hdone
        exact .inactive rfl hnot hactive
      · split at h
        · rename_i hactive
          obtain ⟨rfl, rfl⟩ := accepts_done.1 h
          exact .active rfl hactive
        · exact absurd h not_accepts_refused
    · intro h
      cases h with
      | lenient isLenient => exact absurd isLenient (by decide)
      | @active flag _ isActive =>
        refine ⟨flag, [], rfl, ?_⟩
        simp [isActive]
      | @inactive negation flag _ isNot isActive =>
        refine ⟨negation, [flag], rfl, ?_⟩
        rw [if_pos isNot]
        exact accepts_word_bind.2 ⟨flag, [], rfl, isActive, .done false⟩

/-! ### Statements -/

theorem accepts_change {vocabulary : Vocabulary} {field : Token} {tail : List Token}
    {result : UserChange} :
    Accepts (change vocabulary field.text) tail result ↔
      ChangeForm vocabulary (field :: tail) result := by
  unfold change
  constructor
  · -- the names of the fields are tried in their order
    intro h
    split at h
    · rename_i hfield
      obtain ⟨joint, rest, rfl, hto, hnew⟩ := accepts_word_bind.1 h
      obtain ⟨new, tail, rfl, hdone⟩ := accepts_text_bind.1 hnew
      obtain ⟨rfl, rfl⟩ := accepts_pure.1 hdone
      exact .password hfield hto
    split at h
    · rename_i hfield
      obtain ⟨joint, rest, rfl, hto, hnew⟩ := accepts_word_bind.1 h
      obtain ⟨new, tail, rfl, hdone⟩ := accepts_text_bind.1 hnew
      obtain ⟨rfl, rfl⟩ := accepts_pure.1 hdone
      exact .username hfield hto
    split at h
    · rename_i hfield
      obtain ⟨first, second, names, rfl, hnames, hdone⟩ := accepts_bind.1 h
      obtain ⟨list, rfl, hgranted⟩ := accepts_permissions.1 hnames
      obtain ⟨rfl, rfl⟩ := accepts_pure.1 hdone
      exact .permissions hfield hgranted
    split at h
    · rename_i hfield
      obtain ⟨first, second, flag, rfl, hflag, hdone⟩ := accepts_bind.1 h
      obtain ⟨token, rfl, ⟨htext, rfl⟩ | ⟨htext, rfl⟩⟩ := accepts_truthValue.1 hflag
      · obtain ⟨rfl, rfl⟩ := accepts_pure.1 hdone
        exact .active hfield htext
      · obtain ⟨rfl, rfl⟩ := accepts_pure.1 hdone
        exact .inactive hfield htext
    · exact absurd h not_accepts_refused
  · intro h
    cases h with
    | @password _ joint new isField isTo =>
      rw [isField]
      exact accepts_word_bind.2 ⟨joint, [new], rfl, isTo,
        accepts_text_bind.2 ⟨new, [], rfl, .done _⟩⟩
    | @username _ joint new isField isTo =>
      rw [isField]
      exact accepts_word_bind.2 ⟨joint, [new], rfl, isTo,
        accepts_text_bind.2 ⟨new, [], rfl, .done _⟩⟩
    | @permissions _ list names isField granted =>
      rw [isField]
      exact accepts_bind.2 ⟨[list], [], names, rfl, accepts_permissions.2 ⟨list, rfl, granted⟩,
        .done _⟩
    | @active _ flag isField isTrue =>
      rw [isField]
      exact accepts_bind.2 ⟨[flag], [], true, rfl,
        accepts_truthValue.2 ⟨flag, rfl, Or.inl ⟨isTrue, rfl⟩⟩, .done _⟩
    | @inactive _ flag isField isFalse =>
      rw [isField]
      exact accepts_bind.2 ⟨[flag], [], false, rfl,
        accepts_truthValue.2 ⟨flag, rfl, Or.inr ⟨isFalse, rfl⟩⟩, .done _⟩

theorem accepts_put {sentence : List Token} {result : Statement} :
    Accepts put sentence result ↔
      ∃ value joint key : Token, sentence = [value, joint, key] ∧ joint.text = "in" ∧
        isKeyName key.text = true ∧ result = .put key.text (Value.ofToken value) := by
  unfold put
  rw [accepts_token_bind]
  constructor
  · rintro ⟨value, rest, rfl, h⟩
    obtain ⟨joint, tail, rfl, hin, hlast⟩ := accepts_word_bind.1 h
    obtain ⟨first, second, name, rfl, hname, hdone⟩ := accepts_bind.1 hlast
    obtain ⟨key, rfl, rfl, hkey⟩ := accepts_key.1 hname
    obtain ⟨rfl, rfl⟩ := accepts_pure.1 hdone
    exact ⟨value, joint, key, rfl, hin, hkey, rfl⟩
  · rintro ⟨value, joint, key, rfl, hin, hkey, rfl⟩
    refine ⟨value, [joint, key], rfl, accepts_word_bind.2 ⟨joint, [key], rfl, hin, ?_⟩⟩
    exact accepts_bind.2 ⟨[key], [], key.text, rfl, accepts_key.2 ⟨key, rfl, rfl, hkey⟩, .done _⟩

theorem accepts_keyOrUser {ofKey ofUser : String → Statement} {sentence : List Token}
    {result : Statement} :
    Accepts (keyOrUser ofKey ofUser) sentence result ↔
      (∃ selector user : Token, sentence = [selector, user] ∧ selector.text = "user" ∧
        result = ofUser user.text) ∨
      (∃ key : Token, sentence = [key] ∧ key.text ≠ "user" ∧ isKeyName key.text = true ∧
        result = ofKey key.text) := by
  unfold keyOrUser
  rw [accepts_text_bind]
  constructor
  · rintro ⟨found, rest, rfl, h⟩
    split at h
    · -- the word `user` is never the key
      rename_i huser
      obtain ⟨user, tail, rfl, hdone⟩ := accepts_text_bind.1 h
      obtain ⟨rfl, rfl⟩ := accepts_pure.1 hdone
      exact Or.inl ⟨found, user, rfl, huser, rfl⟩
    · rename_i huser
      obtain ⟨first, second, name, rfl, hname, hdone⟩ := accepts_bind.1 h
      obtain ⟨rfl, rfl, hkey⟩ := accepts_keyNamed.1 hname
      obtain ⟨rfl, rfl⟩ := accepts_pure.1 hdone
      exact Or.inr ⟨found, rfl, huser, hkey, rfl⟩
  · rintro (⟨selector, user, rfl, huser, rfl⟩ | ⟨key, rfl, huser, hkey, rfl⟩)
    · refine ⟨selector, [user], rfl, ?_⟩
      rw [if_pos huser]
      exact accepts_text_bind.2 ⟨user, [], rfl, .done _⟩
    · refine ⟨key, [], rfl, ?_⟩
      rw [if_neg huser]
      exact accepts_bind.2 ⟨[], [], key.text, rfl, accepts_keyNamed.2 ⟨rfl, rfl, hkey⟩, .done _⟩

theorem accepts_listUsers {sentence : List Token} {result : Statement} :
    Accepts listUsers sentence result ↔
      ∃ noun : Token, sentence = [noun] ∧ noun.text = "users" ∧ result = .listUsers := by
  unfold listUsers
  rw [accepts_word_bind]
  constructor
  · rintro ⟨noun, rest, rfl, husers, h⟩
    obtain ⟨rfl, rfl⟩ := accepts_pure.1 h
    exact ⟨noun, rfl, husers, rfl⟩
  · rintro ⟨noun, rfl, husers, rfl⟩
    exact ⟨noun, [], rfl, husers, .done _⟩

theorem accepts_updateUser {vocabulary : Vocabulary} {sentence : List Token}
    {result : Statement} :
    Accepts (updateUser vocabulary) sentence result ↔
      ∃ (selector user setter : Token) (tail : List Token) (change : UserChange),
        sentence = selector :: user :: setter :: tail ∧ selector.text = "user" ∧
        setter.text = "set" ∧ ChangeForm vocabulary tail change ∧
        result = .updateUser user.text change := by
  unfold updateUser
  rw [accepts_word_bind]
  constructor
  · rintro ⟨selector, rest₁, rfl, huser, h₁⟩
    obtain ⟨user, rest₂, rfl, h₂⟩ := accepts_text_bind.1 h₁
    obtain ⟨setter, rest₃, rfl, hset, h₃⟩ := accepts_word_bind.1 h₂
    obtain ⟨field, rest₄, rfl, h₄⟩ := accepts_text_bind.1 h₃
    obtain ⟨first, second, change, rfl, hchange, hdone⟩ := accepts_bind.1 h₄
    obtain ⟨rfl, rfl⟩ := accepts_pure.1 hdone
    rw [List.append_nil]
    exact ⟨selector, user, setter, field :: first, change, rfl, huser, hset,
      accepts_change.1 hchange, rfl⟩
  · rintro ⟨selector, user, setter, tail, change, rfl, huser, hset, hchange, rfl⟩
    -- every form of a change begins with the name of its field
    obtain ⟨field, rest, rfl⟩ : ∃ field rest, tail = field :: rest := by
      cases hchange <;> exact ⟨_, _, rfl⟩
    refine ⟨selector, _, rfl, huser, accepts_text_bind.2 ⟨user, _, rfl, ?_⟩⟩
    refine accepts_word_bind.2 ⟨setter, _, rfl, hset, accepts_text_bind.2 ⟨field, _, rfl, ?_⟩⟩
    exact accepts_bind.2 ⟨rest, [], change, (List.append_nil rest).symm,
      accepts_change.2 hchange, .done _⟩

theorem accepts_registerUser {options : Options} {sentence : List Token} {result : Statement} :
    Accepts (registerUser options) sentence result ↔
      ∃ (userWord user password withWord list andWord isWord : Token) (tail : List Token)
        (names : List String) (active : Bool),
        sentence =
          userWord :: user :: password :: withWord :: list :: andWord :: isWord :: tail ∧
        Connected options.strict userWord withWord andWord isWord ∧
        PermissionList.Grants options.vocabulary list.text names ∧
        FlagForm options.strict tail active ∧
        result = .registerUser user.text password.text names active := by
  unfold registerUser
  rw [accepts_connective_bind]
  constructor
  · rintro ⟨userWord, rest₁, rfl, huser, h₁⟩
    obtain ⟨user, rest₂, rfl, h₂⟩ := accepts_text_bind.1 h₁
    obtain ⟨password, rest₃, rfl, h₃⟩ := accepts_text_bind.1 h₂
    obtain ⟨withWord, rest₄, rfl, hwith, h₄⟩ := accepts_connective_bind.1 h₃
    obtain ⟨first, rest₅, names, rfl, hnames, h₅⟩ := accepts_bind.1 h₄
    obtain ⟨list, rfl, hgranted⟩ := accepts_permissions.1 hnames
    obtain ⟨andWord, rest₆, rfl, hand, h₆⟩ := accepts_connective_bind.1 h₅
    obtain ⟨isWord, rest₇, rfl, his, h₇⟩ := accepts_connective_bind.1 h₆
    obtain ⟨tail, rest₈, active, rfl, hflag, hdone⟩ := accepts_bind.1 h₇
    obtain ⟨rfl, rfl⟩ := accepts_pure.1 hdone
    refine ⟨userWord, user, password, withWord, list, andWord, isWord, tail, names, active, ?_,
      ?_, hgranted, accepts_activeFlag.1 hflag, rfl⟩
    · simp
    · intro hstrict
      exact ⟨huser hstrict, hwith hstrict, hand hstrict, his hstrict⟩
  · rintro ⟨userWord, user, password, withWord, list, andWord, isWord, tail, names, active, rfl,
      hconnected, hgranted, hflag, rfl⟩
    refine ⟨userWord, _, rfl, fun hstrict => (hconnected hstrict).1, ?_⟩
    refine accepts_text_bind.2 ⟨user, _, rfl, accepts_text_bind.2 ⟨password, _, rfl, ?_⟩⟩
    refine accepts_connective_bind.2 ⟨withWord, _, rfl, fun hstrict => (hconnected hstrict).2.1, ?_⟩
    refine accepts_bind.2 ⟨[list], _, names, rfl, accepts_permissions.2 ⟨list, rfl, hgranted⟩, ?_⟩
    refine accepts_connective_bind.2
      ⟨andWord, _, rfl, fun hstrict => (hconnected hstrict).2.2.1, ?_⟩
    refine accepts_connective_bind.2
      ⟨isWord, _, rfl, fun hstrict => (hconnected hstrict).2.2.2, ?_⟩
    exact accepts_bind.2 ⟨tail, [], active, (List.append_nil tail).symm,
      accepts_activeFlag.2 hflag, .done _⟩

/-- The sentences of the grammar are those of the listed forms. -/
theorem accepts_statement_iff {options : Options} {sentence : List Token} {result : Statement} :
    Accepts (statement options) sentence result ↔ Form options sentence result := by
  unfold statement
  rw [accepts_next]
  constructor
  · -- the first token chooses the part, and the part gives the form
    rintro ⟨first, rest, rfl, h⟩
    unfold statementAfter at h
    split at h
    · rename_i hkind
      obtain ⟨value, joint, key, rfl, hin, hkey, rfl⟩ := accepts_put.1 h
      exact .put hkind hin hkey
    · rename_i hkind
      rcases accepts_keyOrUser.1 h with
        ⟨selector, user, rfl, huser, rfl⟩ | ⟨key, rfl, huser, hkey, rfl⟩
      · exact .getUser hkind huser
      · exact .get hkind huser hkey
    · rename_i hkind
      rcases accepts_keyOrUser.1 h with
        ⟨selector, user, rfl, huser, rfl⟩ | ⟨key, rfl, huser, hkey, rfl⟩
      · exact .deleteUser hkind huser
      · exact .delete hkind huser hkey
    · rename_i hkind
      obtain ⟨userWord, user, password, withWord, list, andWord, isWord, tail, names, active, rfl,
        hconnected, hgranted, hflag, rfl⟩ := accepts_registerUser.1 h
      exact .registerUser hkind hconnected hgranted hflag
    · rename_i hkind
      obtain ⟨selector, user, setter, tail, change, rfl, huser, hset, hchange, rfl⟩ :=
        accepts_updateUser.1 h
      exact .updateUser hkind huser hset hchange
    · rename_i hkind
      obtain ⟨noun, rfl, husers, rfl⟩ := accepts_listUsers.1 h
      exact .listUsers hkind husers
    · exact absurd h not_accepts_refused
  · -- each form has its keyword in front, which chooses the part that accepts it
    intro h
    cases h with
    | @put first value joint key isPut isIn isKey =>
      refine ⟨first, _, rfl, ?_⟩
      rw [isPut]
      exact accepts_put.2 ⟨value, joint, key, rfl, isIn, isKey, rfl⟩
    | @getUser first selector user isGet isUser =>
      refine ⟨first, _, rfl, ?_⟩
      rw [isGet]
      exact accepts_keyOrUser.2 (Or.inl ⟨selector, user, rfl, isUser, rfl⟩)
    | @get first key isGet notUser isKey =>
      refine ⟨first, _, rfl, ?_⟩
      rw [isGet]
      exact accepts_keyOrUser.2 (Or.inr ⟨key, rfl, notUser, isKey, rfl⟩)
    | @deleteUser first selector user isDelete isUser =>
      refine ⟨first, _, rfl, ?_⟩
      rw [isDelete]
      exact accepts_keyOrUser.2 (Or.inl ⟨selector, user, rfl, isUser, rfl⟩)
    | @delete first key isDelete notUser isKey =>
      refine ⟨first, _, rfl, ?_⟩
      rw [isDelete]
      exact accepts_keyOrUser.2 (Or.inr ⟨key, rfl, notUser, isKey, rfl⟩)
    | @listUsers first noun isList isUsers =>
      refine ⟨first, _, rfl, ?_⟩
      rw [isList]
      exact accepts_listUsers.2 ⟨noun, rfl, isUsers, rfl⟩
    | @updateUser first selector user setter tail change isUpdate isUser isSet changed =>
      refine ⟨first, _, rfl, ?_⟩
      rw [isUpdate]
      exact accepts_updateUser.2
        ⟨selector, user, setter, tail, change, rfl, isUser, isSet, changed, rfl⟩
    | @registerUser first userWord user password withWord list andWord isWord tail names active
        isRegister connected granted flagged =>
      refine ⟨first, _, rfl, ?_⟩
      rw [isRegister]
      exact accepts_registerUser.2 ⟨userWord, user, password, withWord, list, andWord, isWord,
        tail, names, active, rfl, connected, granted, flagged, rfl⟩

end Reading

/-- Tokens are read as a statement exactly if they begin with a sentence of one of its forms. -/
theorem ofTokens_eq_ok_iff (options : Options) (tokens : List Token) (statement : Statement) :
    Statement.ofTokens options tokens = .ok statement ↔
      ∃ sentence rest, tokens = sentence ++ rest ∧ Form options sentence statement := by
  rw [Statement.ofTokens, Reading.run, Reading.runAfter_eq_ok_iff]
  simp only [Reading.accepts_statement_iff]

end StoreCommand
