import StoreCommand.Command

/-!
# Sessions

A program that reads commands holds on to two things between them: the options in force, and tokens
that wait to be read.  Text is fed to a session piece by piece; every piece is cut on its own, so
the positions of its tokens count from its own start.
-/

namespace StoreCommand

/-- The options in force and the tokens that wait. -/
structure Session where
  options : Options := {}
  pending : List Token := []
  deriving DecidableEq, Repr

namespace Session

def setStrict (session : Session) (flag : Bool) : Session :=
  { session with options := { session.options with strict := flag } }

def setPermissions (session : Session) (names : List String) : Session :=
  { session with options := { session.options with vocabulary := .ofNames names } }

/-- Go back to the standard options; waiting tokens stay. -/
def reset (session : Session) : Session :=
  { session with options := {} }

def feed (session : Session) (text : String) : Except ScanError Session :=
  (tokenize text).map fun tokens => { session with pending := session.pending ++ tokens }

/-- Forget up to `count` of the oldest tokens that wait. -/
def drop (session : Session) (count : Nat) : Session :=
  { session with pending := session.pending.drop count }

def statement (session : Session) : Except ParseError Statement :=
  Statement.ofTokens session.options session.pending

def statementOf (session : Session) (text : String) : Except CommandError Statement :=
  Statement.ofText session.options text

/-- What can be done to a session. -/
inductive Step where
  | setStrict (flag : Bool)
  | setPermissions (names : List String)
  | reset
  | feed (text : String)
  | drop (count : Nat)
  deriving DecidableEq, Repr

/-- A text that cannot be cut into tokens leaves the session as it is. -/
def take (session : Session) : Step → Session
  | .setStrict flag => session.setStrict flag
  | .setPermissions names => session.setPermissions names
  | .reset => session.reset
  | .feed text => (session.feed text).toOption.getD session
  | .drop count => session.drop count

end Session

end StoreCommand
