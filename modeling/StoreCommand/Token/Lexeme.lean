import StoreCommand.Text.Blank
import StoreCommand.Text.Word
import StoreCommand.Token.Basic

/-!
# Lexemes

A lexeme is a stretch of characters that makes one token: a quoted string, a run of digits, two runs
of digits around a dot, a word, or a comma.  A run of word characters that are not all digits is a
word even if it begins with a digit.

`Lexeme.spelling` writes a lexeme down, `Lexeme.WellFormed` says which values are lexemes of the
language, and `Lexeme.first?` takes the longest one from the front of a text.  Its two laws say that
nothing is lost on the way (`spelling_append_of_first?`) and that what it takes is a lexeme
(`wellFormed_of_first?`).
-/

namespace StoreCommand

/-- A stretch of input that makes one token. -/
inductive Lexeme where
  | quoted (quote : Char) (body : List Char)
  | integer (digits : List Char)
  | decimal (whole fraction : List Char)
  | word (letters : List Char)
  | comma
  deriving DecidableEq, Repr

def isQuote (c : Char) : Bool :=
  c == '"' || c == '\''

namespace Lexeme

/-! ### The lexemes of the language -/

def spelling : Lexeme → List Char
  | quoted quote body => quote :: body ++ [quote]
  | integer digits => digits
  | decimal whole fraction => whole ++ '.' :: fraction
  | word letters => letters
  | comma => [',']

/-- The lexemes of the language: a string holds no quote of its own sort, a number has digits only,
    and a word is not a number. -/
def WellFormed : Lexeme → Prop
  | quoted quote body => isQuote quote = true ∧ quote ∉ body
  | integer digits => digits ≠ [] ∧ ∀ c ∈ digits, c.isDigit = true
  | decimal whole fraction =>
    (whole ≠ [] ∧ ∀ c ∈ whole, c.isDigit = true) ∧
      (fraction ≠ [] ∧ ∀ c ∈ fraction, c.isDigit = true)
  | word letters =>
    (letters ≠ [] ∧ ∀ c ∈ letters, isWordChar c = true) ∧ ∃ c ∈ letters, c.isDigit = false
  | comma => True

/-- The token of a lexeme that stands at `position`.  A word whose lowered letters spell a keyword
    becomes that keyword; any other word keeps its case. -/
def token (position : Nat) : Lexeme → Token
  | quoted _ body => ⟨.string, String.ofList body, position⟩
  | integer digits => ⟨.integer, String.ofList digits, position⟩
  | decimal whole fraction => ⟨.decimal, String.ofList (whole ++ '.' :: fraction), position⟩
  | word letters =>
    match Keyword.ofSpelling? (String.ofList (lowered letters)) with
    | some keyword => ⟨.keyword keyword, keyword.spelling, position⟩
    | none => ⟨.word, String.ofList letters, position⟩
  | comma => ⟨.comma, ",", position⟩

/-! ### Taking one lexeme -/

/-- The string that `quote` opens, when `rest` follows the quote: it ends at the next quote of the
    same sort. -/
def string? (quote : Char) (rest : List Char) : Option (Lexeme × List Char) :=
  match rest.dropWhile (· != quote) with
  | [] => none
  | _ :: after => some (.quoted quote (rest.takeWhile (· != quote)), after)

/-- The number that begins with the digits `whole`, when `rest` follows them.  A dot belongs to the
    number only if a digit follows it. -/
def number (whole rest : List Char) : Lexeme × List Char :=
  match rest with
  | '.' :: after =>
    if after.takeWhile Char.isDigit = [] then (.integer whole, rest)  -- the dot is left over
    else (.decimal whole (after.takeWhile Char.isDigit), after.dropWhile Char.isDigit)
  | _ => (.integer whole, rest)

/-- The lexeme made of the run of word characters `run`, when `rest` follows it. -/
def wordOrNumber (run rest : List Char) : Lexeme × List Char :=
  if run.all Char.isDigit then number run rest else (.word run, rest)

/-- The longest lexeme at the front of a text, and the text behind it. -/
def first? : List Char → Option (Lexeme × List Char)
  | [] => none
  | c :: rest =>
    if isQuote c then string? c rest
    else if isWordChar c then
      some (wordOrNumber ((c :: rest).takeWhile isWordChar) ((c :: rest).dropWhile isWordChar))
    else if c == ',' then some (.comma, rest)
    else none

/-! ### Nothing is lost -/

theorem spelling_append_of_string? {quote : Char} {rest after : List Char} {lexeme : Lexeme}
    (h : string? quote rest = some (lexeme, after)) : lexeme.spelling ++ after = quote :: rest := by
  unfold string? at h
  split at h
  · simp at h
  · -- what stopped the run is the quote that opened it
    rename_i d tail hd
    obtain ⟨rfl, rfl⟩ := Prod.mk.inj (Option.some.inj h)
    have hquote : d = quote := by simpa using dropWhile_not_head hd
    have := List.takeWhile_append_dropWhile (p := (· != quote)) (l := rest)
    rw [hd, hquote] at this
    simp [spelling, this]

theorem spelling_append_number (whole rest : List Char) :
    (number whole rest).1.spelling ++ (number whole rest).2 = whole ++ rest := by
  unfold number
  split
  · split
    · rfl
    · simp [spelling, List.takeWhile_append_dropWhile]
  · rfl

theorem spelling_append_wordOrNumber (run rest : List Char) :
    (wordOrNumber run rest).1.spelling ++ (wordOrNumber run rest).2 = run ++ rest := by
  unfold wordOrNumber
  split
  · exact spelling_append_number run rest
  · rfl

theorem spelling_append_of_first? {text rest : List Char} {lexeme : Lexeme}
    (h : first? text = some (lexeme, rest)) : lexeme.spelling ++ rest = text := by
  cases text with
  | nil => simp [first?] at h
  | cons c tail =>
    rw [first?] at h
    split at h
    · exact spelling_append_of_string? h
    · split at h
      · have := spelling_append_wordOrNumber ((c :: tail).takeWhile isWordChar)
          ((c :: tail).dropWhile isWordChar)
        rwa [Option.some.inj h, List.takeWhile_append_dropWhile] at this
      · split at h
        · rename_i hc
          obtain ⟨rfl, rfl⟩ := Prod.mk.inj (Option.some.inj h)
          simp [spelling, beq_iff_eq.1 hc]
        · simp at h

/-! ### What is taken is a lexeme -/

private theorem all_takeWhile {p : Char → Bool} {text : List Char} :
    ∀ c ∈ text.takeWhile p, p c = true :=
  fun _ hc => List.all_eq_true.1 List.all_takeWhile _ hc

theorem wellFormed_of_string? {quote : Char} {rest after : List Char} {lexeme : Lexeme}
    (hquote : isQuote quote = true) (h : string? quote rest = some (lexeme, after)) :
    lexeme.WellFormed := by
  unfold string? at h
  split at h
  · simp at h
  · obtain ⟨rfl, rfl⟩ := Prod.mk.inj (Option.some.inj h)
    exact ⟨hquote, fun hmem => by simpa using all_takeWhile _ hmem⟩

theorem wellFormed_number (whole rest : List Char) (hne : whole ≠ [])
    (hdigits : ∀ c ∈ whole, c.isDigit = true) : (number whole rest).1.WellFormed := by
  unfold number
  split
  · split
    · exact ⟨hne, hdigits⟩
    · exact ⟨⟨hne, hdigits⟩, ‹_›, all_takeWhile⟩
  · exact ⟨hne, hdigits⟩

theorem wellFormed_wordOrNumber (run rest : List Char) (hne : run ≠ [])
    (hrun : ∀ c ∈ run, isWordChar c = true) : (wordOrNumber run rest).1.WellFormed := by
  unfold wordOrNumber
  split
  · rename_i hall
    exact wellFormed_number run rest hne (List.all_eq_true.1 hall)
  · rename_i hall
    exact ⟨⟨hne, hrun⟩, by simpa using hall⟩

theorem wellFormed_of_first? {text rest : List Char} {lexeme : Lexeme}
    (h : first? text = some (lexeme, rest)) : lexeme.WellFormed := by
  cases text with
  | nil => simp [first?] at h
  | cons c tail =>
    rw [first?] at h
    split at h
    · rename_i hquote
      exact wellFormed_of_string? hquote h
    · split at h
      · rename_i hword
        have := wellFormed_wordOrNumber ((c :: tail).takeWhile isWordChar)
          ((c :: tail).dropWhile isWordChar) (by simp [hword]) all_takeWhile
        rwa [Option.some.inj h] at this
      · split at h
        · obtain ⟨rfl, rfl⟩ := Prod.mk.inj (Option.some.inj h)
          trivial
        · simp at h

theorem spelling_ne_nil {lexeme : Lexeme} (h : lexeme.WellFormed) : lexeme.spelling ≠ [] := by
  cases lexeme with
  | quoted => simp [spelling]
  | integer => exact h.1
  | decimal => simp [spelling]
  | word => exact h.1.1
  | comma => simp [spelling]

/-- What is left is shorter than the text, so that a text has finitely many lexemes. -/
theorem length_lt_of_first? {text rest : List Char} {lexeme : Lexeme}
    (h : first? text = some (lexeme, rest)) : rest.length < text.length := by
  have := List.length_pos_iff.2 (spelling_ne_nil (wellFormed_of_first? h))
  rw [← spelling_append_of_first? h, List.length_append]
  omega

end Lexeme

end StoreCommand
