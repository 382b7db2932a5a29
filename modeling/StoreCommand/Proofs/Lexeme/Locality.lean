import Mathlib.Data.List.Basic
import StoreCommand.Proofs.Lexeme.Passage

/-!
# Scanning piece by piece

A text can be cut into pieces that are scanned on their own, as long as no lexeme grows across a
cut.  `CleanJoin` says when two texts meet in this way, and `scan_append` is the law for two pieces:
the tokens of the whole are those of the front, followed by what scanning returns for the back,
moved to the place where the back stands.

For more pieces only the *outline* is of interest, the kinds and texts of the tokens or the cause of
the error.  It does not change with the blanks between the pieces (`outline_of_assembled`).
-/

namespace StoreCommand

/-! ### Two pieces -/

/-- Nothing can grow together where the two texts meet: one of them is empty, the first one ends
    with something that is closed, or the second one begins with something that joins nothing. -/
def CleanJoin (front back : List Char) : Prop :=
  (front = [] ∨ ∃ c, front.getLast? = some c ∧ (isBlank c = true ∨ c = ',' ∨ isQuote c = true)) ∨
    (back = [] ∨ ∃ c, back.head? = some c ∧ isWordChar c = false ∧ c ≠ '.')

namespace Lexeme

/-- A word or a number ends with a character that a word can have, so only strings and commas end
    with anything else. -/
theorem endsBefore_or_isWordChar_getLast {lexeme : Lexeme} (h : lexeme.WellFormed) :
    (∀ rest, lexeme.EndsBefore rest) ∨ ∀ c ∈ lexeme.spelling.getLast?, isWordChar c = true := by
  cases lexeme with
  | quoted => exact Or.inl fun _ => trivial
  | integer digits =>
    refine Or.inr fun c hc => isWordChar_of_isDigit (h.2 c ?_)
    exact List.mem_of_getLast? hc
  | decimal whole fraction =>
    refine Or.inr fun c hc => isWordChar_of_isDigit (h.2.2 c ?_)
    have hsplit : whole ++ '.' :: fraction = (whole ++ ['.']) ++ fraction := by simp
    rw [spelling, hsplit, List.getLast?_append_of_ne_nil _ h.2.1] at hc
    exact List.mem_of_getLast? hc
  | word letters => exact Or.inr fun c hc => h.1.2 c (List.mem_of_getLast? hc)
  | comma => exact Or.inl fun _ => trivial

theorem not_isWordChar_of_closed {c : Char}
    (h : isBlank c = true ∨ c = ',' ∨ isQuote c = true) : isWordChar c = false := by
  apply Bool.eq_false_iff.2
  intro hword
  rcases h with hblank | rfl | hquote
  · exact absurd hblank (by simp [isBlank_of_isWordChar hword])
  · exact absurd hword (by decide)
  · exact absurd hquote (by simp [isQuote_of_isWordChar hword])

theorem endsBefore_of_cleanJoin {lexeme : Lexeme} {start back : List Char} (h : lexeme.WellFormed)
    (clean : CleanJoin (start ++ lexeme.spelling) back) : lexeme.EndsBefore back := by
  have hne := spelling_ne_nil h
  rcases clean with (hempty | ⟨c, hlast, hclosed⟩) | hback
  · exact absurd (List.append_eq_nil_iff.1 hempty).2 hne
  · -- a closed last character is that of a string or a comma, and nothing joins these
    rcases endsBefore_or_isWordChar_getLast h with hends | hword
    · exact hends back
    · rw [List.getLast?_append_of_ne_nil _ hne] at hlast
      exact absurd (hword c hlast) (by simp [not_isWordChar_of_closed hclosed])
  · apply endsBefore_of_separated
    intro c hc
    rcases hback with rfl | ⟨d, hd, hjoins⟩
    · exact absurd hc (by simp)
    · obtain rfl : d = c := Option.some.inj (hd.symm.trans hc)
      exact hjoins

end Lexeme

/-- A text that is passed to its end is also passed in front of a text that it meets cleanly. -/
theorem passed_of_cleanJoin {front back : List Char} {position : Nat} {tokens : List Token}
    (h : Passed [] position front tokens) (clean : CleanJoin front back) :
    Passed back position front tokens := by
  have hextended : Passed ([] ++ back) position front tokens := by
    apply h.extend
    rintro start lexeme earlier rfl - hwell -
    exact Lexeme.endsBefore_of_cleanJoin hwell clean
  exact hextended

theorem scan_append {front back : List Char} {position : Nat} {tokens : List Token}
    (h : scan position front = .ok tokens) (clean : CleanJoin front back) :
    scan position (front ++ back) = (scan (position + front.length) back).map (tokens ++ ·) :=
  scan_of_passed (passed_of_cleanJoin (passed_of_scan h) clean)

theorem scan_eq_shifted (position : Nat) (text : List Char) :
    scan position text = shifted position (scan 0 text) :=
  scan_shift position 0 text

theorem tokenize_append {front back : String} {tokens : List Token}
    (h : tokenize front = .ok tokens) (clean : CleanJoin front.toList back.toList) :
    tokenize (front ++ back) = (shifted front.length (tokenize back)).map (tokens ++ ·) := by
  rw [tokenize, String.toList_append, scan_append h clean, Nat.zero_add, scan_eq_shifted,
    String.length_toList, tokenize]

/-! ### Blanks -/

theorem passed_blanks {gap : List Char} (h : ∀ c ∈ gap, isBlank c = true) (rest : List Char)
    (position : Nat) : Passed rest position gap [] := by
  induction gap generalizing position with
  | nil => exact .nothing position
  | cons c tail ih =>
    exact .blank (h c List.mem_cons_self)
      (ih (fun d hd => h d (List.mem_cons_of_mem c hd)) (position + 1))

theorem tokenize_blanks_append {gap : String} (h : ∀ c ∈ gap.toList, isBlank c = true)
    (text : String) : tokenize (gap ++ text) = shifted gap.length (tokenize text) := by
  rw [tokenize, String.toList_append, scan_of_passed (passed_blanks h text.toList 0), Nat.zero_add,
    scan_eq_shifted, String.length_toList, tokenize]
  cases scan 0 text.toList with
  | ok tokens => rfl
  | error error => rfl

/-- Blanks keep what is in front of them apart from what is behind them. -/
theorem cleanJoin_of_blanks {front gap rest : List Char} (h : ∀ c ∈ gap, isBlank c = true)
    (apart : gap ≠ [] ∨ CleanJoin front rest) : CleanJoin front (gap ++ rest) := by
  cases gap with
  | nil => exact apart.resolve_left (fun hne => hne rfl)
  | cons c tail =>
    have hblank := h c List.mem_cons_self
    refine Or.inr (Or.inr ⟨c, rfl, Lexeme.not_isWordChar_of_closed (Or.inl hblank), ?_⟩)
    rintro rfl
    exact absurd hblank (by decide)

theorem toList_space_append (text : String) : (" " ++ text).toList = ' ' :: text.toList := by
  rw [String.toList_append]
  rfl

theorem cleanJoin_space (front : List Char) (text : String) :
    CleanJoin front (" " ++ text).toList := by
  rw [toList_space_append]
  exact Or.inr (Or.inr ⟨' ', rfl, by decide, by decide⟩)

/-! ### Outlines -/

def Token.content (token : Token) : Token.Kind × String :=
  (token.kind, token.text)

/-- What scanning returns, without the positions. -/
def outline : Except ScanError (List Token) → Except ScanError.Cause (List (Token.Kind × String))
  | .ok tokens => .ok (tokens.map Token.content)
  | .error error => .error error.cause

@[simp] theorem outline_shifted (offset : Nat) (result : Except ScanError (List Token)) :
    outline (shifted offset result) = outline result := by
  cases result with
  | ok tokens =>
    rw [shifted, outline, List.map_map]
    rfl
  | error error => rfl

theorem outline_map_append (tokens : List Token) (result : Except ScanError (List Token)) :
    outline (result.map (tokens ++ ·)) = (outline result).map (tokens.map Token.content ++ ·) := by
  cases result with
  | ok later => simp [outline, Except.map]
  | error error => rfl

/-- `Assembled last text contents`: the text is made of complete pieces with blanks between them,
    and ends with `last`.  A gap may be without blanks where the join is clean.  The pieces have
    tokens of their own, with the given kinds and texts. -/
inductive Assembled (last : String) : String → List (Token.Kind × String) → Prop where
  | last : Assembled last last []
  | piece {piece gap rest : String} {tokens : List Token}
      {contents : List (Token.Kind × String)} (tokenized : tokenize piece = .ok tokens)
      (blank : ∀ c ∈ gap.toList, isBlank c = true)
      (apart : gap.toList ≠ [] ∨ CleanJoin piece.toList rest.toList)
      (later : Assembled last rest contents) :
      Assembled last (piece ++ (gap ++ rest)) (tokens.map Token.content ++ contents)

/-- The outline of a text made of pieces is that of the pieces, whatever blanks are between them. -/
theorem outline_of_assembled {last text : String} {contents : List (Token.Kind × String)}
    (h : Assembled last text contents) :
    outline (tokenize text) = (outline (tokenize last)).map (contents ++ ·) := by
  induction h with
  | last =>
    -- no pieces in front, and nothing is added to what comes of the last one
    cases outline (tokenize last) with
    | ok contents => rfl
    | error cause => rfl
  | @piece piece gap rest tokens contents tokenized blank apart _ ih =>
    have clean : CleanJoin piece.toList (gap ++ rest).toList := by
      rw [String.toList_append]
      exact cleanJoin_of_blanks blank apart
    rw [tokenize_append tokenized clean, outline_map_append, outline_shifted,
      tokenize_blanks_append blank, outline_shifted, ih]
    cases outline (tokenize last) with
    | ok contents => simp [Except.map]
    | error cause => rfl

/-- Scanning is local.  Where two texts meet cleanly, the tokens or the error of the back are found
    behind the tokens of the front, with positions that count from the start of the whole.  So the
    outline of a text made of complete pieces is the same whatever blanks are between them. -/
theorem tokenize_local :
    (∀ (front back : String) (tokens : List Token), tokenize front = .ok tokens →
      CleanJoin front.toList back.toList →
        (∀ later, tokenize back = .ok later →
          tokenize (front ++ back) = .ok (tokens ++ later.map (Token.shift front.length))) ∧
        ∀ cause position, tokenize back = .error ⟨cause, position⟩ →
          tokenize (front ++ back) = .error ⟨cause, front.length + position⟩) ∧
    ∀ (last text : String) (contents : List (Token.Kind × String)), Assembled last text contents →
      outline (tokenize text) = (outline (tokenize last)).map (contents ++ ·) ∧
        ∀ other, Assembled last other contents →
          outline (tokenize other) = outline (tokenize text) := by
  constructor
  · intro front back tokens hfront clean
    have hwhole := tokenize_append hfront clean
    constructor
    · intro later hback
      rw [hwhole, hback, shifted, Except.map]
    · intro cause position hback
      rw [hwhole, hback, shifted, Except.map]
  · intro last text contents htext
    have houtline := outline_of_assembled htext
    refine ⟨houtline, ?_⟩
    intro other hother
    rw [houtline, outline_of_assembled hother]

/-- Strings that touch are scanned on their own, and blanks can be left out on their sides. -/
theorem tokenize_local_quotes :
    (tokenize "put 'é'" = .ok [⟨.keyword .put, "put", 0⟩, ⟨.string, "é", 4⟩] ∧
      CleanJoin "put 'é'".toList "\"x\"1_".toList ∧ CleanJoin "put 'é'".toList "1.".toList ∧
      tokenize ("put 'é'" ++ "\"x\"1_") =
        .ok [⟨.keyword .put, "put", 0⟩, ⟨.string, "é", 4⟩, ⟨.string, "x", 7⟩, ⟨.word, "1_", 10⟩] ∧
      tokenize ("put 'é'" ++ "1.") = .error ⟨.illegalCharacter '.', 8⟩) ∧
    (Assembled "k" ("put" ++ ("" ++ ("'é'" ++ (" " ++ "k"))))
        [(.keyword .put, "put"), (.string, "é")] ∧
      Assembled "k" ("put" ++ ("\t\n" ++ ("'é'" ++ ("" ++ "k"))))
        [(.keyword .put, "put"), (.string, "é")] ∧
      outline (tokenize "put\t\n'é'k") = outline (tokenize "put'é' k")) := by
  have hput : tokenize "put" = .ok [⟨.keyword .put, "put", 0⟩] := by decide +kernel
  have hquoted : tokenize "'é'" = .ok [⟨.string, "é", 0⟩] := by decide +kernel
  have hfront : tokenize "put 'é'" = .ok [⟨.keyword .put, "put", 0⟩, ⟨.string, "é", 4⟩] := by
    decide +kernel
  have hlast : "put 'é'".toList.getLast? = some '\'' := by decide +kernel
  have hfirst : CleanJoin "put 'é'".toList "\"x\"1_".toList :=
    Or.inl (Or.inr ⟨'\'', hlast, by decide⟩)
  have hsecond : CleanJoin "put 'é'".toList "1.".toList := Or.inl (Or.inr ⟨'\'', hlast, by decide⟩)
  have hspace : ∀ c ∈ " ".toList, isBlank c = true := by
    simpa using (show isBlank ' ' = true by decide)
  have hlines : ∀ c ∈ "\t\n".toList, isBlank c = true := by
    simpa using (show isBlank '\t' = true ∧ isBlank '\n' = true by decide)
  have hspaced : Assembled "k" ("put" ++ ("" ++ ("'é'" ++ (" " ++ "k"))))
      [(.keyword .put, "put"), (.string, "é")] :=
    .piece hput (by simp) (Or.inr (Or.inr (Or.inr ⟨'\'', by simp, by decide⟩)))
      (.piece hquoted hspace (Or.inl (by simp)) .last)
  have htouching : Assembled "k" ("put" ++ ("\t\n" ++ ("'é'" ++ ("" ++ "k"))))
      [(.keyword .put, "put"), (.string, "é")] :=
    .piece hput hlines (Or.inl (by simp))
      (.piece hquoted (by simp)
        (Or.inr (Or.inl (Or.inr ⟨'\'', by simp, by decide⟩))) .last)
  refine ⟨⟨hfront, hfirst, hsecond, ?_, ?_⟩, hspaced, htouching, ?_⟩
  · exact (tokenize_local.1 _ _ _ hfront hfirst).1 [⟨.string, "x", 0⟩, ⟨.word, "1_", 3⟩]
      (by decide +kernel)
  · exact (tokenize_local.1 _ _ _ hfront hsecond).2 (.illegalCharacter '.') 1 (by decide +kernel)
  · exact (tokenize_local.2 _ _ _ hspaced).2 _ htouching

end StoreCommand
