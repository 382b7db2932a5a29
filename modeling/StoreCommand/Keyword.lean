/-!
# Keywords

The sixteen reserved words of the command language.  A keyword is spelled in lower case; a word of
the input is a keyword when its lowered letters are such a spelling.
-/

namespace StoreCommand

/-- The reserved words.  The suffix `Word` keeps a name apart from the words of Lean itself. -/
inductive Keyword where
  | put
  | inWord
  | get
  | delete
  | register
  | user
  | withWord
  | andWord
  | isWord
  | update
  | set
  | trueWord
  | falseWord
  | noneWord
  | active
  | list
  deriving DecidableEq, Repr

namespace Keyword

/-- All keywords, in the order in which the language lists them. -/
def all : List Keyword :=
  [put, inWord, get, delete, register, user, withWord, andWord, isWord, update, set, trueWord,
   falseWord, noneWord, active, list]

def spelling : Keyword → String
  | put => "put"
  | inWord => "in"
  | get => "get"
  | delete => "delete"
  | register => "register"
  | user => "user"
  | withWord => "with"
  | andWord => "and"
  | isWord => "is"
  | update => "update"
  | set => "set"
  | trueWord => "true"
  | falseWord => "false"
  | noneWord => "none"
  | active => "active"
  | list => "list"

/-- The name under which diagnostics speak of a keyword: its spelling in capitals. -/
def name (keyword : Keyword) : String :=
  String.ofList (keyword.spelling.toList.map Char.toUpper)

/-- The keyword with this spelling; no case is folded here. -/
def ofSpelling? (text : String) : Option Keyword :=
  all.find? fun keyword => keyword.spelling == text

@[simp] theorem ofSpelling?_spelling (keyword : Keyword) :
    ofSpelling? keyword.spelling = some keyword := by
  cases keyword <;> rfl

theorem ofSpelling?_eq_some {text : String} {keyword : Keyword} :
    ofSpelling? text = some keyword ↔ text = keyword.spelling := by
  refine ⟨fun h => ?_, fun h => h ▸ ofSpelling?_spelling keyword⟩
  unfold ofSpelling? at h
  have hk := List.find?_some h
  exact (beq_iff_eq.1 hk).symm

theorem spelling_inj {a b : Keyword} (h : a.spelling = b.spelling) : a = b :=
  Option.some.inj (by rw [← ofSpelling?_spelling a, h, ofSpelling?_spelling])

end Keyword

end StoreCommand
