import StoreCommand.Permission.List
import StoreCommand.Value

/-!
# Statements

One command is one statement: it stores, fetches or removes the value of a key, or it registers,
changes, fetches, removes or lists users.  A statement is only described here, nothing is carried
out.

The constructors take their parts as they come.  `UserChange.ofPermissions` collapses a permission
list in the way reading does.
-/

namespace StoreCommand

/-- A change to one field of a user, with the new content of the field. -/
inductive UserChange where
  | password (password : String)
  | username (username : String)
  | permissions (names : List String)
  | active (flag : Bool)
  deriving DecidableEq, Repr

namespace UserChange

def field : UserChange → String
  | password _ => "password"
  | username _ => "username"
  | permissions _ => "permissions"
  | active _ => "active"

/-- The change that grants these permissions. -/
def ofPermissions (names : List String) : UserChange :=
  permissions (PermissionList.collapse names)

end UserChange

inductive Statement where
  | put (key : String) (value : Value)
  | get (key : String)
  | delete (key : String)
  | registerUser (username password : String) (permissions : List String) (active : Bool)
  | updateUser (username : String) (change : UserChange)
  | getUser (username : String)
  | deleteUser (username : String)
  | listUsers
  deriving DecidableEq, Repr

namespace Statement

def kind : Statement → String
  | put .. => "put"
  | get _ => "get"
  | delete _ => "delete"
  | registerUser .. => "register_user"
  | updateUser .. => "update_user"
  | getUser _ => "get_user"
  | deleteUser _ => "delete_user"
  | listUsers => "list_users"

/-- Equality of statements as the language compares them; only stored numbers make it differ from
    identity. -/
def same : Statement → Statement → Bool
  | put key value, put otherKey otherValue => key == otherKey && value.same otherValue
  | statement, other => decide (statement = other)

end Statement

end StoreCommand
