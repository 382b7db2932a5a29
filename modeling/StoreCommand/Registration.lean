import StoreCommand.Statement.Basic

/-!
# Registrations

A registration collects, one step at a time, what is needed to register a user.  A new user is
inactive and has no permissions; permissions are kept in the order in which they were granted, and
only the finished statement collapses the list.
-/

namespace StoreCommand

/-- A registration in progress. -/
structure Registration where
  username : String
  password : String
  permissions : List String := []
  active : Bool := false
  deriving DecidableEq, Repr

namespace Registration

def grant (registration : Registration) (name : String) : Registration :=
  { registration with permissions := registration.permissions ++ [name] }

def setActive (registration : Registration) (flag : Bool) : Registration :=
  { registration with active := flag }

def statement (registration : Registration) : Statement :=
  .registerUser registration.username registration.password
    (PermissionList.collapse registration.permissions) registration.active

/-! ### Steps -/

inductive Step where
  | grant (name : String)
  | setActive (flag : Bool)
  deriving DecidableEq, Repr

def take (registration : Registration) : Step → Registration
  | .grant name => registration.grant name
  | .setActive flag => registration.setActive flag

end Registration

end StoreCommand
