import StoreCommand.Command
import StoreCommand.Proofs.Statement.Form
import StoreCommand.Proofs.Value.Expressible

/-!
# Statements that have a text

Commands cannot say everything that a statement could hold.  A key is a key name and, where a user
could be meant, not the word `user`; a string does without one of the two quotes; a list of
permissions is one that reading returns.  `Statement.Expressible` collects these conditions, and
every statement that is read from a text meets them (`expressible_of_ofText`).

A key may be written between quotes, and only then its capital letters can outlive a keyword
(`exists_string_of_folds`).
-/

namespace StoreCommand

def UserChange.Expressible (vocabulary : Vocabulary) : UserChange → Prop
  | password new => hasBothQuotes new.toList = false
  | username new => hasBothQuotes new.toList = false
  | permissions names => PermissionList.Readable vocabulary names
  | active _ => True

namespace Statement

/-- The statement has a text. -/
def Expressible (vocabulary : Vocabulary) : Statement → Prop
  | put key value => isKeyName key = true ∧ value.Expressible
  | get key => isKeyName key = true ∧ key ≠ "user"
  | delete key => isKeyName key = true ∧ key ≠ "user"
  | registerUser username password permissions _ =>
    hasBothQuotes username.toList = false ∧ hasBothQuotes password.toList = false ∧
      PermissionList.Readable vocabulary permissions
  | updateUser username change =>
    hasBothQuotes username.toList = false ∧ change.Expressible vocabulary
  | getUser username => hasBothQuotes username.toList = false
  | deleteUser username => hasBothQuotes username.toList = false
  | listUsers => True

end Statement

/-! ### Parts of a statement -/

namespace Statement

def key? : Statement → Option String
  | put key _ => some key
  | get key => some key
  | delete key => some key
  | _ => none

def permissions? : Statement → Option (List String)
  | registerUser _ _ names _ => some names
  | updateUser _ (.permissions names) => some names
  | _ => none

end Statement

def UserChange.strings : UserChange → List String
  | password new => [new]
  | username new => [new]
  | permissions names => [PermissionList.joined names]
  | active _ => []

/-- The strings that the canonical text of a statement has between quotes, in their order. -/
def Statement.strings : Statement → List String
  | put _ (.string text) => [text]
  | registerUser username password permissions _ =>
    [username, password, PermissionList.joined permissions]
  | updateUser username change => username :: change.strings
  | getUser username => [username]
  | deleteUser username => [username]
  | _ => []

theorem isKeyName_field (change : UserChange) : isKeyName change.field = true := by
  cases change <;> simp only [UserChange.field] <;> decide

theorem hasBothQuotes_of_changeExpressible {vocabulary : Vocabulary} {change : UserChange}
    (h : change.Expressible vocabulary) {text : String} (htext : text ∈ change.strings) :
    hasBothQuotes text.toList = false := by
  cases change with
  | password new =>
    obtain rfl := List.mem_singleton.1 htext
    exact h
  | username new =>
    obtain rfl := List.mem_singleton.1 htext
    exact h
  | permissions names =>
    obtain rfl := List.mem_singleton.1 htext
    exact h.quotable
  | active flag => exact absurd htext (by simp [UserChange.strings])

/-- A statement that has a text has no string with both quotes. -/
theorem hasBothQuotes_of_expressible {vocabulary : Vocabulary} {statement : Statement}
    (h : statement.Expressible vocabulary) {text : String} (htext : text ∈ statement.strings) :
    hasBothQuotes text.toList = false := by
  cases statement with
  | put key value =>
    cases value with
    | string written =>
      obtain rfl := List.mem_singleton.1 htext
      exact h.2
    | int | float | bool => exact absurd htext (by simp [Statement.strings])
  | registerUser username password permissions active =>
    simp only [Statement.strings, List.mem_cons, List.not_mem_nil, or_false] at htext
    rcases htext with rfl | rfl | rfl
    · exact h.1
    · exact h.2.1
    · exact h.2.2.quotable
  | updateUser username change =>
    rcases List.mem_cons.1 htext with rfl | hchange
    · exact h.1
    · exact hasBothQuotes_of_changeExpressible h.2 hchange
  | getUser username =>
    obtain rfl := List.mem_singleton.1 htext
    exact h
  | deleteUser username =>
    obtain rfl := List.mem_singleton.1 htext
    exact h
  | get | delete | listUsers => exact absurd htext (by simp [Statement.strings])

/-! ### Reading -/

theorem expressible_of_changeForm {vocabulary : Vocabulary} {tokens : List Token}
    {change : UserChange} (hscan : ∀ token ∈ tokens, token.Scannable)
    (h : ChangeForm vocabulary tokens change) : change.Expressible vocabulary := by
  cases h with
  | @password _ _ new => exact hasBothQuotes_of_scannable (hscan new (by simp))
  | @username _ _ new => exact hasBothQuotes_of_scannable (hscan new (by simp))
  | @permissions _ list _ _ granted =>
    exact PermissionList.readable_of_grants granted
      (hasBothQuotes_of_scannable (hscan list (by simp)))
  | active => trivial
  | inactive => trivial

theorem expressible_of_form {options : Options} {tokens : List Token} {statement : Statement}
    (hscan : ∀ token ∈ tokens, token.Scannable) (h : Form options tokens statement) :
    statement.Expressible options.vocabulary := by
  cases h with
  | @put _ value _ _ _ _ isKey => exact ⟨isKey, Value.expressible_ofToken (hscan value (by simp))⟩
  | @getUser _ _ user => exact hasBothQuotes_of_scannable (hscan user (by simp))
  | get _ notUser isKey => exact ⟨isKey, notUser⟩
  | @deleteUser _ _ user => exact hasBothQuotes_of_scannable (hscan user (by simp))
  | delete _ notUser isKey => exact ⟨isKey, notUser⟩
  | listUsers => trivial
  | @updateUser _ _ user _ tail _ _ _ _ changed =>
    refine ⟨hasBothQuotes_of_scannable (hscan user (by simp)), ?_⟩
    exact expressible_of_changeForm (fun token hmem => hscan token (by simp [hmem])) changed
  | @registerUser _ _ user password _ list _ _ _ _ _ _ _ granted =>
    refine ⟨hasBothQuotes_of_scannable (hscan user (by simp)),
      hasBothQuotes_of_scannable (hscan password (by simp)), ?_⟩
    exact PermissionList.readable_of_grants granted
      (hasBothQuotes_of_scannable (hscan list (by simp)))

/-- A command is read in two steps: its tokens, and a sentence in front of them. -/
theorem ofText_eq_ok_iff {options : Options} {text : String} {statement : Statement} :
    Statement.ofText options text = .ok statement ↔
      ∃ sentence rest, tokenize text = .ok (sentence ++ rest) ∧
        Form options sentence statement := by
  unfold Statement.ofText
  constructor
  · intro h
    split at h
    · -- no token is returned for a text that cannot be scanned
      exact absurd h (by simp)
    · rename_i tokens htokens
      split at h
      · exact absurd h (by simp)
      · rename_i result hresult
        obtain rfl := Except.ok.inj h
        rcases Reading.runAfter_eq_ok_iff.1 hresult with ⟨sentence, rest, rfl, haccepts⟩
        exact ⟨sentence, rest, htokens, Reading.accepts_statement_iff.1 haccepts⟩
  · rintro ⟨sentence, rest, htokens, hform⟩
    have hrun : Statement.ofTokens options (sentence ++ rest) = .ok statement :=
      Reading.runAfter_eq_ok_iff.2 ⟨sentence, rest, rfl, Reading.accepts_statement_iff.2 hform⟩
    rw [htokens]
    simp only [hrun]

theorem ofText_eq_parse_error_iff {options : Options} {text : String} {error : ParseError} :
    Statement.ofText options text = .error (.parse error) ↔
      ∃ tokens, tokenize text = .ok tokens ∧ Statement.ofTokens options tokens = .error error := by
  unfold Statement.ofText
  constructor
  · intro h
    split at h
    · exact absurd h (by simp)
    · rename_i tokens htokens
      split at h
      · rename_i other hother
        obtain rfl : other = error := by simpa using h
        exact ⟨tokens, htokens, hother⟩
      · exact absurd h (by simp)
  · rintro ⟨tokens, htokens, herror⟩
    simp only [htokens, herror]

/-- Every statement that is read from a text has a text. -/
theorem expressible_of_ofText {options : Options} {text : String} {statement : Statement}
    (h : Statement.ofText options text = .ok statement) :
    statement.Expressible options.vocabulary := by
  rcases ofText_eq_ok_iff.1 h with ⟨sentence, rest, htokens, hform⟩
  apply expressible_of_form _ hform
  intro token hmem
  exact scannable_of_tokenize htokens token (List.mem_append_left rest hmem)

/-! ### Keys -/

theorem exists_token_of_key? {options : Options} {tokens : List Token} {statement : Statement}
    (h : Form options tokens statement) {key : String} (hkey : statement.key? = some key) :
    ∃ token ∈ tokens, token.text = key := by
  cases h with
  | @put _ _ _ last => exact ⟨last, by simp, Option.some.inj hkey⟩
  | @get _ last => exact ⟨last, by simp, Option.some.inj hkey⟩
  | @delete _ last => exact ⟨last, by simp, Option.some.inj hkey⟩
  | getUser => exact absurd hkey (by simp [Statement.key?])
  | deleteUser => exact absurd hkey (by simp [Statement.key?])
  | listUsers => exact absurd hkey (by simp [Statement.key?])
  | updateUser => exact absurd hkey (by simp [Statement.key?])
  | registerUser => exact absurd hkey (by simp [Statement.key?])

theorem exists_string_of_folds {options : Options} {text : String} {statement : Statement}
    (h : Statement.ofText options text = .ok statement) {key : String}
    (hkey : statement.key? = some key) (hfolds : Folds key) :
    ∃ tokens, tokenize text = .ok tokens ∧
      ∃ token ∈ tokens, token.kind = .string ∧ token.text = key := by
  rcases ofText_eq_ok_iff.1 h with ⟨sentence, rest, htokens, hform⟩
  -- a bare word would have become a keyword in small letters
  rcases exists_token_of_key? hform hkey with ⟨token, hmem, rfl⟩
  have hmem := List.mem_append_left rest hmem
  exact ⟨_, htokens, token, hmem,
    kind_of_folds (scannable_of_tokenize htokens token hmem) hfolds, rfl⟩

end StoreCommand
