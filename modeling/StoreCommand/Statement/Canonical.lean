import StoreCommand.Binary64.Shortest
import StoreCommand.Statement.Basic
import StoreCommand.Text.Quoted

/-!
# Canonical text

Every statement has one canonical text.  It is made of pieces with single spaces between them:
keywords in lower case, keys as bare words, all other strings quoted.  A number always has a dot, so
that it is not taken for an integer, and infinity is written as the smallest power of ten that is
too large for a finite number.
-/

namespace StoreCommand

def Binary64.literal (x : Binary64) : List Char :=
  if x = number false Magnitude.infinite then '1' :: List.replicate 309 '0' ++ ".0".toList
  else if '.' ∈ x.text then x.text
  else x.text ++ ".0".toList

namespace Value

def literal : Value → String
  | string text => quoted text
  | int number => String.ofList (integerDigits number.toInt)
  | float number => String.ofList number.literal
  | bool true => "true"
  | bool false => "false"

end Value

/-- The pieces that name the new content of a field. -/
def UserChange.pieces : UserChange → List String
  | password new => ["to", quoted new]
  | username new => ["to", quoted new]
  | permissions names => [quoted (PermissionList.joined names)]
  | active true => ["true"]
  | active false => ["false"]

namespace Statement

def pieces : Statement → List String
  | put key value => ["put", value.literal, "in", key]
  | get key => ["get", key]
  | delete key => ["delete", key]
  | registerUser username password permissions active =>
    ["register", "user", quoted username, quoted password, "with",
      quoted (PermissionList.joined permissions), "and", "is"] ++
      (if active then ["active"] else ["not", "active"])
  | updateUser username change => ["update", "user", quoted username, "set", change.field] ++
      change.pieces
  | getUser username => ["get", "user", quoted username]
  | deleteUser username => ["delete", "user", quoted username]
  | listUsers => ["list", "users"]

def canonical (statement : Statement) : String :=
  " ".intercalate statement.pieces

end Statement

end StoreCommand
