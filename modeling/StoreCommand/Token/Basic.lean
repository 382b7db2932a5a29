import StoreCommand.Keyword

/-!
# Tokens

A command is read as a list of tokens.  A token has a kind, the text that later stages look at, and
the offset of its first character, counted in Unicode scalar values from the start of the command.
-/

namespace StoreCommand

namespace Token

/-- What a token is: a literal, a plain word, a comma, or one of the keywords. -/
inductive Kind where
  | string
  | integer
  | decimal
  | word
  | comma
  | keyword (keyword : Keyword)
  deriving DecidableEq, Repr

namespace Kind

def all : List Kind :=
  [string, integer, decimal, word, comma] ++ Keyword.all.map keyword

def name : Kind → String
  | string => "STRING"
  | integer => "INT"
  | decimal => "FLOAT"
  | word => "IDENT"
  | comma => "COMMA"
  | keyword k => k.name

def isKeyword : Kind → Bool
  | keyword _ => true
  | _ => false

def ofName? (name : String) : Option Kind :=
  all.find? fun kind => kind.name == name

end Kind

end Token

/-- A piece of a command: its kind, its text, and the offset at which it begins. -/
structure Token where
  kind : Token.Kind
  text : String
  position : Nat
  deriving DecidableEq, Repr

end StoreCommand
