import StoreCommand.Token.Basic

/-!
# Readings

A statement is read from a list of tokens without ever going back.  A *reading* is the tree of what
can happen: it is done, it refuses the token that it has just been given, or it asks for the next
token and goes on depending on it.  Running a reading walks down the tree along the list.

The position of an error follows from this shape.  A refusal is blamed on the token that was read
last, and running out of tokens has no position.  Tokens behind the end of a reading are not looked
at.
-/

namespace StoreCommand

namespace ParseError

/-- What a command lacks when it ends too early: a fixed word, or a part with a meaning of its
    own. -/
inductive Slot where
  | word (text : String)
  | value
  | key
  | username
  | password
  | permissions
  | activeState
  | field
  | newPassword
  | newUsername
  | truthValue
  deriving DecidableEq, Repr

def Slot.description : Slot → String
  | word text => text
  | value => "value"
  | key => "key"
  | username => "username"
  | password => "password"
  | permissions => "permissions list"
  | activeState => "active state"
  | field => "field to update"
  | newPassword => "new password"
  | newUsername => "new username"
  | truthValue => "'true' or 'false'"

/-- Why a list of tokens is not a statement. -/
inductive Cause where
  | emptyInput
  | missing (slot : Slot)
  | invalidKey (found : String)
  | unknownPermission (name : String)
  | wrongWord (expected found : String)
  | notTruthValue (found : String)
  | unknownField (found : String)
  | unknownStatement (kind : Token.Kind)
  deriving DecidableEq, Repr

def Cause.message : Cause → String
  | emptyInput => "empty input"
  | missing slot => s!"missing {slot.description}"
  | invalidKey found => s!"invalid key name: '{found}'"
  | unknownPermission name => s!"invalid permission: '{name}'"
  | wrongWord expected found => s!"expected '{expected}', got '{found}'"
  | notTruthValue found => s!"expected 'true' or 'false', got '{found}'"
  | unknownField found => s!"invalid field for update: '{found}'"
  | unknownStatement kind => s!"unknown statement: {kind.name}"

end ParseError

/-- A list of tokens that is not a statement, with the offset of the token at fault. -/
structure ParseError where
  cause : ParseError.Cause
  position : Option Nat
  deriving DecidableEq, Repr

def ParseError.message (error : ParseError) : String :=
  match error.position with
  | none => error.cause.message
  | some position => s!"{error.cause.message} at position {position}"

/-! ### Readings -/

/-- A way to read tokens: `next` asks for one more and says what is missing if there is none. -/
inductive Reading (α : Type) where
  | done (result : α)
  | refused (cause : ParseError.Cause)
  | next (missing : ParseError.Cause) (step : Token → Reading α)

namespace Reading

variable {α β : Type}

/-- Go on with another reading where this one is done. -/
def bind : Reading α → (α → Reading β) → Reading β
  | done result, continuation => continuation result
  | refused cause, _ => refused cause
  | next missing step, continuation => next missing fun token => (step token).bind continuation

instance : Monad Reading where
  pure := done
  bind := bind

/-- Readings obey the laws of a monad, so the parts of a statement can be regrouped. -/
instance : LawfulMonad Reading :=
  LawfulMonad.mk' Reading
    (by
      intro α reading
      induction reading with
      | done => rfl
      | refused => rfl
      | next missing step ih => exact congrArg (next missing) (funext ih))
    (by
      intro α β result continuation
      rfl)
    (by
      intro α β γ reading first second
      induction reading with
      | done => rfl
      | refused => rfl
      | next missing step ih => exact congrArg (next missing) (funext ih))

/-- The outcome of a reading on a list of tokens, where `last` is the position of the token read
    just before. -/
def runAfter (last : Option Nat) : Reading α → List Token → Except ParseError α
  | done result, _ => .ok result
  | refused cause, _ => .error ⟨cause, last⟩
  | next missing _, [] => .error ⟨missing, none⟩
  | next _ step, token :: rest => runAfter (some token.position) (step token) rest

def run (reading : Reading α) (tokens : List Token) : Except ParseError α :=
  reading.runAfter none tokens

@[simp] theorem runAfter_done (last : Option Nat) (result : α) (tokens : List Token) :
    (done result).runAfter last tokens = .ok result := by
  cases tokens <;> rfl

@[simp] theorem runAfter_refused (last : Option Nat) (cause : ParseError.Cause)
    (tokens : List Token) :
    (refused cause : Reading α).runAfter last tokens = .error ⟨cause, last⟩ := by
  cases tokens <;> rfl

@[simp] theorem runAfter_next_nil (last : Option Nat) (missing : ParseError.Cause)
    (step : Token → Reading α) :
    (next missing step).runAfter last [] = .error ⟨missing, none⟩ := rfl

@[simp] theorem runAfter_next_cons (last : Option Nat) (missing : ParseError.Cause)
    (step : Token → Reading α) (token : Token) (rest : List Token) :
    (next missing step).runAfter last (token :: rest) =
      (step token).runAfter (some token.position) rest := rfl

/-- Only running out of tokens depends on what comes behind them. -/
theorem runAfter_append (reading : Reading α) (last : Option Nat) (tokens more : List Token)
    (h : ∀ cause, reading.runAfter last tokens ≠ .error ⟨cause, none⟩) :
    reading.runAfter last (tokens ++ more) = reading.runAfter last tokens := by
  induction tokens generalizing reading last with
  | nil =>
    cases reading with
    | done => simp
    | refused => simp
    | next missing step => exact absurd rfl (h missing)
  | cons token rest ih =>
    cases reading with
    | done => simp
    | refused => simp
    | next missing step => exact ih (step token) (some token.position) h

/-! ### Parts -/

/-- Any token, for the part `slot`. -/
def token (slot : ParseError.Slot) : Reading Token :=
  next (.missing slot) done

def text (slot : ParseError.Slot) : Reading String :=
  do return (← token slot).text

/-- A fixed word, recognised by its text whatever the kind of its token. -/
def word (expected : String) : Reading Unit := do
  let found ← text (.word expected)
  if found = expected then done () else refused (.wrongWord expected found)

end Reading

end StoreCommand
