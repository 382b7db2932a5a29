import StoreCommand.Statement.Basic
import StoreCommand.Text.Word

/-!
# Records

For other programs a statement is described by a flat record: named fields in a fixed order, the
first of which gives the sort of statement.  A field holds a text, a list of texts, a truth value or
a number; a number that is not finite has no description and becomes the empty datum.

Sorts of statements and fields of users have titles, which are words with capital letters and
nothing between them.  A record has them in small letters, the first with an underscore between two
words.  How a statement and a change name themselves is not asked for, so that both agree is a
property of the titles.
-/

namespace StoreCommand

/-- The content of a field. -/
inductive Datum where
  | empty
  | text (text : String)
  | texts (texts : List String)
  | truth (flag : Bool)
  | int (number : Int64)
  | real (number : Binary64)
  deriving DecidableEq, Repr

abbrev Record := List (String × Datum)

/-! ### Titles -/

/-- A title in small letters, with an underscore in front of every capital letter that it has behind
    its first character. -/
def snakeCase : List Char → List Char
  | [] => []
  | c :: rest =>
    c.toLower :: rest.flatMap fun d => if d.isUpper then ['_', d.toLower] else [d.toLower]

def Statement.title : Statement → String
  | put .. => "Put"
  | get _ => "Get"
  | delete _ => "Delete"
  | registerUser .. => "RegisterUser"
  | updateUser .. => "UpdateUser"
  | getUser _ => "GetUser"
  | deleteUser _ => "DeleteUser"
  | listUsers => "ListUsers"

/-- The sort of a statement, as its record gives it. -/
def Statement.tag (statement : Statement) : String :=
  String.ofList (snakeCase statement.title.toList)

def UserChange.title : UserChange → String
  | password _ => "Password"
  | username _ => "Username"
  | permissions _ => "Permissions"
  | active _ => "Active"

/-- The changed field of a user, as a record gives it. -/
def UserChange.tag (change : UserChange) : String :=
  String.ofList (lowered change.title.toList)

/-! ### Fields -/

/-- The description of a value does not tell its type, only its content. -/
def Value.datum : Value → Datum
  | string text => .text text
  | int number => .int number
  | float number => if number.isFinite then .real number else .empty
  | bool flag => .truth flag

def UserChange.datum : UserChange → Datum
  | password new => .text new
  | username new => .text new
  | permissions names => .texts names
  | active flag => .truth flag

namespace Statement

def fields : Statement → Record
  | put key value => [("key", .text key), ("value", value.datum)]
  | get key => [("key", .text key)]
  | delete key => [("key", .text key)]
  | registerUser username password permissions active =>
    [("username", .text username), ("password", .text password),
      ("permissions", .texts permissions), ("isActive", .truth active)]
  | updateUser username change =>
    [("username", .text username), ("field", .text change.tag), ("value", change.datum)]
  | getUser username => [("username", .text username)]
  | deleteUser username => [("username", .text username)]
  | listUsers => []

def record (statement : Statement) : Record :=
  ("type", .text statement.tag) :: statement.fields

end Statement

end StoreCommand
