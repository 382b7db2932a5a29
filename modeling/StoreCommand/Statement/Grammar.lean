import StoreCommand.Key
import StoreCommand.Statement.Basic
import StoreCommand.Statement.Reading

/-!
# The grammar of statements

The first token decides by its kind which statement follows; all later fixed words are recognised by
their text alone.  Each statement is a reading, put together from its parts in the order in which
they are written.

Registering a user has four connecting words.  Unless the options are strict they may be any tokens
at all, and the user is active exactly if the last token reads `active`; strict options check the
words and accept `not active` as well.
-/

namespace StoreCommand

/-- How commands are read: the permissions that are known, and whether the connecting words of a
    registration are checked. -/
structure Options where
  vocabulary : Vocabulary := Vocabulary.standard
  strict : Bool := false
  deriving DecidableEq, Repr

namespace Reading

/-! ### Parts of statements -/

def keyNamed (found : String) : Reading String :=
  if isKeyName found then done found else refused (.invalidKey found)

def key : Reading String := do
  keyNamed (← text .key)

def permissions (vocabulary : Vocabulary) : Reading (List String) := do
  match PermissionList.read vocabulary (← text .permissions) with
  | .ok names => done names
  | .error unknown => refused (.unknownPermission unknown)

def truthValue : Reading Bool := do
  let found ← text .truthValue
  if found = "true" then done true
  else if found = "false" then done false
  else refused (.notTruthValue found)

/-- A connecting word, checked only if `strict`. -/
def connective (strict : Bool) (expected : String) : Reading Unit :=
  if strict then word expected else do
    let _ ← text (.word expected)
    done ()

/-- Whether a user is active, read without checks: one token that may be `active`. -/
def lenientFlag : Reading Bool := do
  let found ← text .activeState
  return decide (found = "active")

/-- Whether a user is active, read with checks: `active` or `not active`. -/
def strictFlag : Reading Bool := do
  let found ← text (.word "active")
  if found = "not" then do
    word "active"
    return false
  else if found = "active" then done true
  else refused (.wrongWord "active" found)

def activeFlag (strict : Bool) : Reading Bool :=
  if strict then strictFlag else lenientFlag

/-! ### Statements -/

/-- What follows `put`: a value, the word `in` and a key. -/
def put : Reading Statement := do
  let value := Value.ofToken (← token .value)
  word "in"
  return .put (← key) value

/-- What follows `get` and `delete`: the word `user` and a user, or else a key. -/
def keyOrUser (ofKey ofUser : String → Statement) : Reading Statement := do
  let found ← text .key
  if found = "user" then
    return ofUser (← text .username)
  else
    return ofKey (← keyNamed found)

def registerUser (options : Options) : Reading Statement := do
  connective options.strict "user"
  let username ← text .username
  let password ← text .password
  connective options.strict "with"
  let names ← permissions options.vocabulary
  connective options.strict "and"
  connective options.strict "is"
  return .registerUser username password names (← activeFlag options.strict)

def change (vocabulary : Vocabulary) (field : String) : Reading UserChange :=
  if field = "password" then do
    word "to"
    return .password (← text .newPassword)
  else if field = "username" then do
    word "to"
    return .username (← text .newUsername)
  else if field = "permissions" then
    return .permissions (← permissions vocabulary)
  else if field = "active" then
    return .active (← truthValue)
  else refused (.unknownField field)

def updateUser (vocabulary : Vocabulary) : Reading Statement := do
  word "user"
  let username ← text .username
  word "set"
  let field ← text .field
  return .updateUser username (← change vocabulary field)

def listUsers : Reading Statement := do
  word "users"
  return .listUsers

/-- What follows a first token of the given kind. -/
def statementAfter (options : Options) : Token.Kind → Reading Statement
  | .keyword .put => put
  | .keyword .get => keyOrUser .get .getUser
  | .keyword .delete => keyOrUser .delete .deleteUser
  | .keyword .register => registerUser options
  | .keyword .update => updateUser options.vocabulary
  | .keyword .list => listUsers
  | kind => refused (.unknownStatement kind)

def statement (options : Options) : Reading Statement :=
  next .emptyInput fun first => statementAfter options first.kind

end Reading

def Statement.ofTokens (options : Options) (tokens : List Token) : Except ParseError Statement :=
  (Reading.statement options).run tokens

end StoreCommand
