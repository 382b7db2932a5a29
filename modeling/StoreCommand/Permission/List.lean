import StoreCommand.Permission.Vocabulary
import StoreCommand.Text.Blank

/-!
# Permission lists

A list of permissions is one text: names between commas, with blanks around them that do not count
and empty entries that are dropped.  Every entry has to be known, and the first one that is not is
reported.  A list that names `none` means `none` alone.
-/

namespace StoreCommand

namespace PermissionList

/-- The names between the commas of a text, trimmed, without the empty ones. -/
def entries (text : String) : List String :=
  (((text.toList.splitOn ',').map trimBlanks).filter (· ≠ [])).map String.ofList

def joined (names : List String) : String :=
  ",".intercalate names

/-- The list `none` for a list that names it, and any other list as it is. -/
def collapse (names : List String) : List String :=
  if nonePermission ∈ names then [nonePermission] else names

/-- The permissions that a text lists, or its first entry outside the vocabulary.  All entries are
    checked before the list collapses. -/
def read (vocabulary : Vocabulary) (text : String) : Except String (List String) :=
  match (entries text).find? fun name => !vocabulary.knows name with
  | some unknown => .error unknown
  | none => .ok (collapse (entries text))

end PermissionList

end StoreCommand
