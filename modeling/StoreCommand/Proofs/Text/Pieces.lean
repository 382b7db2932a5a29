import StoreCommand.Proofs.Lexeme.Spaced

/-!
# Rows of pieces

A row of pieces is written with single spaces between them.  Where a piece ends can be seen from the
text if the piece shows its own end: it is between quotes and does not hold the quote, or it has no
space and no quote in front (`Delimited`).  Such a piece is cut off from a text in only one way,
whatever stands behind the space after it (`Delimited.eq_of_append_eq`), and so the text of a row
determines the row (`eq_of_intercalate_eq`).  Nothing has to be read for that: a piece may be
anything between its ends.
-/

namespace StoreCommand

/-- Where the text ends can be seen from the text alone, if a space or nothing follows. -/
inductive Delimited : List Char → Prop where
  | quoted {quote : Char} {body : List Char} (isQuote : isQuote quote = true)
      (closed : quote ∉ body) : Delimited (quote :: body ++ [quote])
  | bare {c : Char} {tail : List Char} (notQuote : isQuote c = false)
      (noSpace : ' ' ∉ c :: tail) : Delimited (c :: tail)

theorem Delimited.of_forall {text : List Char} (hne : text ≠ [])
    (h : ∀ c ∈ text, isQuote c = false ∧ c ≠ ' ') : Delimited text := by
  cases text with
  | nil => exact absurd rfl hne
  | cons c tail => exact .bare (h c List.mem_cons_self).1 fun hspace => (h ' ' hspace).2 rfl

theorem not_quote_of_isWordChar {c : Char} (h : isWordChar c = true) :
    isQuote c = false ∧ c ≠ ' ' := by
  refine ⟨isQuote_of_isWordChar h, ?_⟩
  rintro rfl
  exact absurd h (by decide)

theorem delimited_word {text : List Char} (hne : text ≠ [])
    (h : ∀ c ∈ text, isWordChar c = true) : Delimited text :=
  .of_forall hne fun c hc => not_quote_of_isWordChar (h c hc)

/-! ### One piece -/

/-- Two runs in front of one text are the same, if both go on as long as they can. -/
theorem run_append_inj {p : Char → Bool} {run other rest tail : List Char}
    (hrun : ∀ c ∈ run, p c = true) (hother : ∀ c ∈ other, p c = true)
    (hrest : ∀ c ∈ rest.head?, p c = false) (htail : ∀ c ∈ tail.head?, p c = false)
    (h : run ++ rest = other ++ tail) : run = other ∧ rest = tail := by
  constructor
  · rw [← takeWhile_run hrun hrest, h, takeWhile_run hother htail]
  · rw [← dropWhile_run hrun hrest, h, dropWhile_run hother htail]

theorem bne_of_notMem {stop : Char} {text : List Char} (h : stop ∉ text) :
    ∀ c ∈ text, (c != stop) = true := by
  intro c hc
  simp only [bne_iff_ne]
  rintro rfl
  exact h hc

/-- Nothing stands there, or a space and then anything. -/
def StartsBehindPiece (rest : List Char) : Prop :=
  ∀ c ∈ rest.head?, c = ' '

theorem Delimited.ne_nil {piece : List Char} (h : Delimited piece) : piece ≠ [] := by
  cases h with
  | quoted => simp
  | bare => simp

theorem Delimited.eq_of_append_eq {piece other rest tail : List Char} (hpiece : Delimited piece)
    (hother : Delimited other) (hrest : StartsBehindPiece rest) (htail : StartsBehindPiece tail)
    (h : piece ++ rest = other ++ tail) : piece = other ∧ rest = tail := by
  cases hpiece with
  | @quoted quote body isQuote closed =>
    cases hother with
    | @quoted otherQuote otherBody _ otherClosed =>
      simp only [List.cons_append, List.append_assoc, List.nil_append, List.cons.injEq] at h
      obtain ⟨rfl, h⟩ := h
      -- both strings run up to the first quote of their sort
      have hend : ∀ text : List Char, ∀ c ∈ (quote :: text).head?, (c != quote) = false := by
        simp
      obtain ⟨rfl, hbehind⟩ := run_append_inj (bne_of_notMem closed)
        (bne_of_notMem otherClosed) (hend rest) (hend tail) h
      exact ⟨rfl, (List.cons.inj hbehind).2⟩
    | @bare c letters notQuote =>
      -- one begins with a quote, the other does not
      simp only [List.cons_append, List.cons.injEq] at h
      exact absurd isQuote (by simp [h.1, notQuote])
  | @bare c letters notQuote noSpace =>
    cases hother with
    | @quoted quote body isQuote =>
      simp only [List.cons_append, List.cons.injEq] at h
      exact absurd isQuote (by simp [← h.1, notQuote])
    | @bare d others _ otherNoSpace =>
      -- both run up to the first space
      have hend : ∀ text : List Char, StartsBehindPiece text →
          ∀ c ∈ text.head?, (c != ' ') = false := by
        intro text hstart c hc
        simp [hstart c hc]
      exact run_append_inj (bne_of_notMem noSpace) (bne_of_notMem otherNoSpace)
        (hend rest hrest) (hend tail htail) h

/-! ### Rows -/

/-- What stands behind a piece when these pieces follow it. -/
def behindPiece : List String → List Char
  | [] => []
  | pieces => ' ' :: (" ".intercalate pieces).toList

theorem startsBehindPiece_behindPiece (pieces : List String) :
    StartsBehindPiece (behindPiece pieces) := by
  cases pieces with
  | nil => simp [StartsBehindPiece, behindPiece]
  | cons piece pieces => simp [StartsBehindPiece, behindPiece]

theorem toList_intercalate_cons (piece : String) (pieces : List String) :
    (" ".intercalate (piece :: pieces)).toList = piece.toList ++ behindPiece pieces := by
  cases pieces with
  | nil => rw [String.intercalate_singleton, behindPiece, List.append_nil]
  | cons second pieces =>
    rw [String.intercalate_cons_cons, String.toList_append, String.toList_append,
      List.append_assoc]
    rfl

/-- The text of a row of pieces that show their ends determines the row. -/
theorem eq_of_intercalate_eq {pieces others : List String}
    (hpieces : ∀ piece ∈ pieces, Delimited piece.toList)
    (hothers : ∀ piece ∈ others, Delimited piece.toList)
    (h : " ".intercalate pieces = " ".intercalate others) : pieces = others := by
  have hempty : ∀ (piece : String) (row : List String), Delimited piece.toList →
      " ".intercalate (piece :: row) ≠ "" := by
    intro piece row hpiece hnil
    have hlist := congrArg String.toList hnil
    rw [toList_intercalate_cons] at hlist
    exact hpiece.ne_nil (List.append_eq_nil_iff.1 hlist).1
  induction pieces generalizing others with
  | nil =>
    cases others with
    | nil => rfl
    | cons other others => exact absurd h.symm (hempty _ _ (hothers other List.mem_cons_self))
  | cons piece pieces ih =>
    cases others with
    | nil => exact absurd h (hempty _ _ (hpieces piece List.mem_cons_self))
    | cons other others =>
      have hlist := congrArg String.toList h
      rw [toList_intercalate_cons, toList_intercalate_cons] at hlist
      obtain ⟨hfirst, hbehind⟩ := (hpieces piece List.mem_cons_self).eq_of_append_eq
        (hothers other List.mem_cons_self) (startsBehindPiece_behindPiece pieces)
        (startsBehindPiece_behindPiece others) hlist
      -- behind the first piece either both rows end or both go on with a space
      have hrows : " ".intercalate pieces = " ".intercalate others := by
        cases pieces with
        | nil =>
          cases others with
          | nil => rfl
          | cons => exact absurd hbehind (by simp [behindPiece])
        | cons =>
          cases others with
          | nil => exact absurd hbehind (by simp [behindPiece])
          | cons => exact String.toList_inj.1 (List.cons.inj hbehind).2
      rw [String.toList_inj.1 hfirst, ih (fun p hp => hpieces p (List.mem_cons_of_mem piece hp))
        (fun p hp => hothers p (List.mem_cons_of_mem other hp)) hrows]

/-! ### Quotes -/

theorem quoted_injective {text other : String} (h : quoted text = quoted other) : text = other := by
  have hlist := congrArg String.toList h
  simp only [quoted, String.toList_ofList, List.cons_append, List.cons.injEq] at hlist
  -- the last characters are the quotes, which are the same
  rw [hlist.1] at hlist
  exact String.toList_inj.1 (List.append_cancel_right hlist.2)

theorem delimited_quoted {text : String} (h : hasBothQuotes text.toList = false) :
    Delimited (quoted text).toList := by
  rw [quoted, String.toList_ofList]
  exact .quoted (Lexeme.isQuote_quoteFor text.toList) (quoteFor_notMem h)

end StoreCommand
