import StoreCommand.Statement.Grammar
import StoreCommand.Token.Scan

/-!
# Commands

A command is a text.  It is cut into tokens first and read as a statement second, so an error of the
first sort anywhere in the text wins over any error of the second.
-/

namespace StoreCommand

/-- A text that is not a command: it has no tokens, or its tokens are no statement. -/
inductive CommandError where
  | scan (error : ScanError)
  | parse (error : ParseError)
  deriving DecidableEq, Repr

def CommandError.message : CommandError → String
  | scan error => error.message
  | parse error => error.message

def Statement.ofText (options : Options) (text : String) : Except CommandError Statement :=
  match tokenize text with
  | .error error => .error (.scan error)
  | .ok tokens =>
    match Statement.ofTokens options tokens with
    | .error error => .error (.parse error)
    | .ok statement => .ok statement

end StoreCommand
