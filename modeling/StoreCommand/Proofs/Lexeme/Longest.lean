import StoreCommand.Proofs.Text.Letters
import StoreCommand.Token.Scan

/-!
# Longest match

Which lexeme stands at the front of a text is a question about the lexemes of the language alone:
among all of them that the text begins with, it is the longest.  `Lexeme.first?` looks at one class
of characters after the other and never compares lengths.  This module shows that it finds the
longest lexeme all the same (`first?_eq_some_iff`), and that it fails only where no lexeme begins
(`first?_eq_none_iff`).

The argument has two halves.  A lexeme that a text begins with is never longer than the one that is
taken from the text (`exists_first?_of_isPrefix`).  And a lexeme that nothing behind it can join is
taken exactly as it was spelled (`first?_of_endsBefore`), so a spelling belongs to one lexeme.

Two characters behind a lexeme are enough to tell that it is the longest
(`isLongest_iff_endsBefore`).
-/

namespace StoreCommand

/-! ### Classes of characters -/

theorem toNat_of_isWordChar {c : Char} (h : isWordChar c = true) :
    (48 ≤ c.toNat ∧ c.toNat ≤ 57) ∨ (65 ≤ c.toNat ∧ c.toNat ≤ 90) ∨ c.toNat = 95 ∨
      (97 ≤ c.toNat ∧ c.toNat ≤ 122) := by
  rcases Bool.or_eq_true_iff.1 h with hletter | hunderscore
  · rcases Bool.or_eq_true_iff.1 hletter with halpha | hc
    · rcases Bool.or_eq_true_iff.1 halpha with hc | hc
      · exact Or.inr (Or.inl (isUpper_iff.1 hc))
      · exact Or.inr (Or.inr (Or.inr (isLower_iff.1 hc)))
    · exact Or.inl (isDigit_iff.1 hc)
  · obtain rfl := eq_of_beq hunderscore
    decide

theorem isQuote_iff {c : Char} : isQuote c = true ↔ c = '"' ∨ c = '\'' := by
  simp [isQuote]

/-- A class of characters without the two quotes. -/
theorem not_quote_of_class {p : Char → Bool} (hdouble : p '"' = false) (hsingle : p '\'' = false)
    {c : Char} (h : p c = true) : isQuote c = false := by
  apply Bool.eq_false_iff.2
  intro hquote
  rcases isQuote_iff.1 hquote with rfl | rfl
  · exact absurd h (by simp [hdouble])
  · exact absurd h (by simp [hsingle])

theorem isQuote_of_isWordChar {c : Char} (h : isWordChar c = true) : isQuote c = false :=
  not_quote_of_class (by decide) (by decide) h

theorem isQuote_of_isBlank {c : Char} (h : isBlank c = true) : isQuote c = false :=
  not_quote_of_class (by decide) (by decide) h

theorem isBlank_of_isWordChar {c : Char} (h : isWordChar c = true) : isBlank c = false := by
  apply Bool.eq_false_iff.2
  intro hblank
  have hrange := toNat_of_isWordChar h
  simp only [isBlank, blankRanges, List.any_cons, List.any_nil, Bool.or_false, Bool.or_eq_true,
    Bool.and_eq_true, decide_eq_true_eq] at hblank
  omega

/-! ### Runs -/

theorem takeWhile_run {p : Char → Bool} {run rest : List Char} (hrun : ∀ c ∈ run, p c = true)
    (hrest : ∀ c ∈ rest.head?, p c = false) : (run ++ rest).takeWhile p = run := by
  rw [List.takeWhile_append_of_pos hrun]
  cases rest with
  | nil => simp
  | cons c tail => simp [hrest c rfl]

theorem dropWhile_run {p : Char → Bool} {run rest : List Char} (hrun : ∀ c ∈ run, p c = true)
    (hrest : ∀ c ∈ rest.head?, p c = false) : (run ++ rest).dropWhile p = rest := by
  rw [List.dropWhile_append_of_pos hrun]
  cases rest with
  | nil => simp
  | cons c tail => simp [hrest c rfl]

theorem isPrefix_takeWhile {p : Char → Bool} {run text : List Char} (hrun : ∀ c ∈ run, p c = true)
    (h : run <+: text) : run <+: text.takeWhile p := by
  rcases h with ⟨tail, rfl⟩
  rw [List.takeWhile_append_of_pos hrun]
  exact List.prefix_append run _

namespace Lexeme

/-! ### What is taken from the front -/

theorem first?_quoted {quote : Char} {body : List Char} (hquote : isQuote quote = true)
    (hbody : quote ∉ body) (rest : List Char) :
    first? (quote :: body ++ quote :: rest) = some (.quoted quote body, rest) := by
  have hrun : ∀ c ∈ body, (c != quote) = true := by
    intro c hc
    exact bne_iff_ne.2 fun heq => hbody (heq ▸ hc)
  have hstop : ∀ c ∈ (quote :: rest).head?, (c != quote) = false := by simp
  rw [List.cons_append, first?, if_pos hquote, string?, dropWhile_run hrun hstop,
    takeWhile_run hrun hstop]

theorem first?_of_isWordChar {c : Char} (h : isWordChar c = true) (tail : List Char) :
    first? (c :: tail) = some (wordOrNumber ((c :: tail).takeWhile isWordChar)
      ((c :: tail).dropWhile isWordChar)) := by
  rw [first?, if_neg (by simp [isQuote_of_isWordChar h]), if_pos h]

theorem first?_run_append {run rest : List Char} (hne : run ≠ [])
    (hrun : ∀ c ∈ run, isWordChar c = true) (hrest : ∀ c ∈ rest.head?, isWordChar c = false) :
    first? (run ++ rest) = some (wordOrNumber run rest) := by
  cases run with
  | nil => exact absurd rfl hne
  | cons c tail =>
    rw [List.cons_append, first?_of_isWordChar (hrun c List.mem_cons_self), ← List.cons_append,
      takeWhile_run hrun hrest, dropWhile_run hrun hrest]

theorem first?_comma (rest : List Char) : first? (',' :: rest) = some (.comma, rest) := by
  rfl

theorem wordOrNumber_dot {whole after : List Char} (hwhole : ∀ c ∈ whole, c.isDigit = true)
    (hafter : after.takeWhile Char.isDigit ≠ []) :
    wordOrNumber whole ('.' :: after) =
      (.decimal whole (after.takeWhile Char.isDigit), after.dropWhile Char.isDigit) := by
  rw [wordOrNumber, if_pos (List.all_eq_true.2 hwhole), number, if_neg hafter]

theorem wordOrNumber_digits {digits rest : List Char} (hdigits : ∀ c ∈ digits, c.isDigit = true)
    (hrest : ∀ c, ['.', c] <+: rest → c.isDigit = false) :
    wordOrNumber digits rest = (.integer digits, rest) := by
  rw [wordOrNumber, if_pos (List.all_eq_true.2 hdigits)]
  unfold number
  split
  · -- there is a dot, but no digit behind it
    rename_i after
    rw [if_pos]
    cases after with
    | nil => rfl
    | cons c tail => simp [hrest c ⟨tail, rfl⟩]
  · rfl

/-! ### No lexeme at the front is longer -/

theorem length_le_wordOrNumber (run rest : List Char) :
    run.length ≤ (wordOrNumber run rest).1.spelling.length := by
  unfold wordOrNumber
  split
  · unfold number
    split
    · split
      · simp [spelling]
      · simp [spelling]
    · simp [spelling]
  · simp [spelling]

theorem exists_first?_of_run {run text : List Char} (hne : run ≠ [])
    (hrun : ∀ c ∈ run, isWordChar c = true) (h : run <+: text) :
    ∃ lexeme rest, first? text = some (lexeme, rest) ∧
      run.length ≤ lexeme.spelling.length := by
  cases run with
  | nil => exact absurd rfl hne
  | cons c run =>
    rcases h with ⟨tail, rfl⟩
    refine ⟨_, _, first?_of_isWordChar (hrun c List.mem_cons_self) (run ++ tail), ?_⟩
    have hprefix := isPrefix_takeWhile hrun (List.prefix_append (c :: run) tail)
    exact Nat.le_trans hprefix.length_le (length_le_wordOrNumber _ _)

/-- A lexeme that a text begins with is not longer than the one that is taken from the text, and
    one is taken. -/
theorem exists_first?_of_isPrefix {other : Lexeme} {text : List Char} (hother : other.WellFormed)
    (h : other.spelling <+: text) :
    ∃ lexeme rest, first? text = some (lexeme, rest) ∧
      other.spelling.length ≤ lexeme.spelling.length := by
  cases other with
  | quoted quote body =>
    rcases h with ⟨tail, rfl⟩
    refine ⟨.quoted quote body, tail, ?_, Nat.le_refl _⟩
    simpa [spelling] using first?_quoted hother.1 hother.2 tail
  | integer digits =>
    exact exists_first?_of_run hother.1 (fun c hc => isWordChar_of_isDigit (hother.2 c hc)) h
  | decimal whole fraction =>
    -- the run of word characters ends at the dot, so the fraction is what is left to compare
    rcases h with ⟨tail, rfl⟩
    rcases hother with ⟨⟨hne, hwhole⟩, hfraction, hdigits⟩
    have hrun : ∀ c ∈ whole, isWordChar c = true :=
      fun c hc => isWordChar_of_isDigit (hwhole c hc)
    have hprefix := isPrefix_takeWhile hdigits (List.prefix_append fraction tail)
    have hnonempty : (fraction ++ tail).takeWhile Char.isDigit ≠ [] := by
      intro hnil
      rw [hnil] at hprefix
      exact hfraction (List.prefix_nil.1 hprefix)
    refine ⟨.decimal whole ((fraction ++ tail).takeWhile Char.isDigit),
      (fraction ++ tail).dropWhile Char.isDigit, ?_, ?_⟩
    · have hstop : ∀ c ∈ ('.' :: (fraction ++ tail)).head?, isWordChar c = false := by
        intro c hc
        obtain rfl : '.' = c := by simpa using hc
        decide
      simp only [spelling, List.append_assoc, List.cons_append]
      rw [first?_run_append hne hrun hstop, wordOrNumber_dot hwhole hnonempty]
    · have hlength := hprefix.length_le
      simp only [spelling, List.length_append, List.length_cons]
      omega
  | word letters => exact exists_first?_of_run hother.1.1 hother.1.2 h
  | comma =>
    rcases h with ⟨tail, rfl⟩
    exact ⟨.comma, tail, first?_comma tail, Nat.le_refl _⟩

/-! ### A spelling is taken back -/

/-- A lexeme ends in front of `rest`, because nothing there can join it.  One character decides this
    for most lexemes, and strings and commas are closed.  Digits are also joined by a dot, if a
    digit follows it. -/
def EndsBefore (rest : List Char) : Lexeme → Prop
  | quoted _ _ => True
  | integer _ => (∀ c ∈ rest.head?, isWordChar c = false) ∧
      ∀ c, ['.', c] <+: rest → c.isDigit = false
  | decimal _ _ => ∀ c ∈ rest.head?, c.isDigit = false
  | word _ => ∀ c ∈ rest.head?, isWordChar c = false
  | comma => True

theorem first?_of_endsBefore {lexeme : Lexeme} {rest : List Char} (h : lexeme.WellFormed)
    (hrest : lexeme.EndsBefore rest) : first? (lexeme.spelling ++ rest) = some (lexeme, rest) := by
  cases lexeme with
  | quoted quote body => simpa [spelling] using first?_quoted h.1 h.2 rest
  | integer digits =>
    have hrun : ∀ c ∈ digits, isWordChar c = true := fun c hc => isWordChar_of_isDigit (h.2 c hc)
    rw [spelling, first?_run_append h.1 hrun hrest.1, wordOrNumber_digits h.2 hrest.2]
  | decimal whole fraction =>
    rcases h with ⟨⟨hne, hwhole⟩, hfraction, hdigits⟩
    have hrun : ∀ c ∈ whole, isWordChar c = true :=
      fun c hc => isWordChar_of_isDigit (hwhole c hc)
    have hstop : ∀ c ∈ ('.' :: (fraction ++ rest)).head?, isWordChar c = false := by
      intro c hc
      obtain rfl : '.' = c := by simpa using hc
      decide
    have htake := takeWhile_run hdigits hrest
    have hdrop := dropWhile_run hdigits hrest
    simp only [spelling, List.append_assoc, List.cons_append]
    rw [first?_run_append hne hrun hstop, wordOrNumber_dot hwhole (by rwa [htake]), htake, hdrop]
  | word letters =>
    rcases h with ⟨⟨hne, hrun⟩, c, hc, hnot⟩
    rw [spelling, first?_run_append hne hrun hrest, wordOrNumber, if_neg]
    intro hall
    exact absurd (List.all_eq_true.1 hall c hc) (by simp [hnot])
  | comma => exact first?_comma rest

/-- Nothing at the front of the text can join a lexeme that ends here. -/
def Separated (text : List Char) : Prop :=
  ∀ c ∈ text.head?, isWordChar c = false ∧ c ≠ '.'

theorem endsBefore_of_separated {rest : List Char} (h : Separated rest) (lexeme : Lexeme) :
    lexeme.EndsBefore rest := by
  have hword : ∀ c ∈ rest.head?, isWordChar c = false := fun c hc => (h c hc).1
  cases lexeme with
  | quoted => trivial
  | integer =>
    refine ⟨hword, ?_⟩
    rintro c ⟨tail, rfl⟩
    exact absurd rfl (h '.' rfl).2
  | decimal =>
    intro c hc
    apply Bool.eq_false_iff.2
    intro hdigit
    exact absurd (isWordChar_of_isDigit hdigit) (by simp [hword c hc])
  | word => exact hword
  | comma => trivial

/-- A lexeme is taken as it was spelled, if nothing behind it can join it. -/
theorem first?_spelling_append {lexeme : Lexeme} {rest : List Char} (h : lexeme.WellFormed)
    (hrest : Separated rest) : first? (lexeme.spelling ++ rest) = some (lexeme, rest) :=
  first?_of_endsBefore h (endsBefore_of_separated hrest lexeme)

theorem separated_nil : Separated [] := by
  simp [Separated]

theorem spelling_injective {a b : Lexeme} (ha : a.WellFormed) (hb : b.WellFormed)
    (h : a.spelling = b.spelling) : a = b := by
  have hfirst := first?_spelling_append ha separated_nil
  rw [h, first?_spelling_append hb separated_nil] at hfirst
  exact (Prod.mk.inj (Option.some.inj hfirst)).1.symm

/-! ### The longest lexeme -/

/-- `lexeme` is the longest lexeme of the language that `text` begins with, and `rest` is what
    follows it. -/
structure IsLongest (lexeme : Lexeme) (text rest : List Char) : Prop where
  wellFormed : lexeme.WellFormed
  spelling_append : lexeme.spelling ++ rest = text
  length_le : ∀ other : Lexeme, other.WellFormed → other.spelling <+: text →
    other.spelling.length ≤ lexeme.spelling.length

/-- Taking a lexeme takes the longest one. -/
theorem first?_eq_some_iff {lexeme : Lexeme} {text rest : List Char} :
    first? text = some (lexeme, rest) ↔ IsLongest lexeme text rest := by
  constructor
  · intro h
    refine ⟨wellFormed_of_first? h, spelling_append_of_first? h, ?_⟩
    intro other hother hprefix
    rcases exists_first?_of_isPrefix hother hprefix with ⟨taken, after, htaken, hle⟩
    rcases Prod.mk.inj (Option.some.inj (h.symm.trans htaken)) with ⟨rfl, rfl⟩
    exact hle
  · intro h
    have hprefix : lexeme.spelling <+: text := ⟨rest, h.spelling_append⟩
    rcases exists_first?_of_isPrefix h.wellFormed hprefix with ⟨taken, after, htaken, hle⟩
    have hwell := wellFormed_of_first? htaken
    have happend := spelling_append_of_first? htaken
    have hge := h.length_le taken hwell ⟨after, happend⟩
    -- two beginnings of one text that are equally long are the same
    obtain ⟨hspelling, hrest⟩ := List.append_inj (happend.trans h.spelling_append.symm)
      (Nat.le_antisymm hge hle)
    rw [htaken, spelling_injective hwell h.wellFormed hspelling, hrest]

/-- No lexeme is taken exactly where none begins. -/
theorem first?_eq_none_iff {text : List Char} :
    first? text = none ↔ ∀ lexeme : Lexeme, lexeme.WellFormed → ¬ lexeme.spelling <+: text := by
  constructor
  · intro h lexeme hwell hprefix
    rcases exists_first?_of_isPrefix hwell hprefix with ⟨taken, after, htaken, -⟩
    rw [h] at htaken
    exact absurd htaken (by simp)
  · intro h
    cases htaken : first? text with
    | none => rfl
    | some taken =>
      exact absurd ⟨taken.2, spelling_append_of_first? htaken⟩ (h _ (wellFormed_of_first? htaken))

/-! ### Where the longest lexeme ends -/

theorem isPrefix_snoc {run rest : List Char} {c : Char} (h : c ∈ rest.head?) :
    run ++ [c] <+: run ++ rest := by
  cases rest with
  | nil => exact absurd h (by simp)
  | cons d tail =>
    obtain rfl : d = c := by simpa using h
    exact ⟨tail, by simp⟩

/-- A lexeme is the longest one exactly if nothing behind it can join it. -/
theorem isLongest_iff_endsBefore {lexeme : Lexeme} {rest : List Char} (h : lexeme.WellFormed) :
    IsLongest lexeme (lexeme.spelling ++ rest) rest ↔ lexeme.EndsBefore rest := by
  refine ⟨fun hlongest => ?_, fun hends => first?_eq_some_iff.1 (first?_of_endsBefore h hends)⟩
  have hshort : ∀ other : Lexeme, other.WellFormed → other.spelling <+: lexeme.spelling ++ rest →
      ¬ lexeme.spelling.length < other.spelling.length :=
    fun other hother hprefix => Nat.not_lt.2 (hlongest.length_le other hother hprefix)
  -- what could join the lexeme makes a longer one together with it
  cases lexeme with
  | quoted => trivial
  | integer digits =>
    constructor
    · intro c hc
      apply Bool.eq_false_iff.2
      intro hword
      by_cases hdigit : c.isDigit = true
      · -- one more digit
        have hall : ∀ d ∈ digits ++ [c], d.isDigit = true :=
          List.forall_mem_append.2 ⟨h.2, List.forall_mem_singleton.2 hdigit⟩
        exact hshort (.integer (digits ++ [c])) ⟨by simp, hall⟩ (isPrefix_snoc hc)
          (by simp [spelling])
      · -- a letter behind digits makes a word of both
        have hall : ∀ d ∈ digits ++ [c], isWordChar d = true :=
          List.forall_mem_append.2
            ⟨fun d hd => isWordChar_of_isDigit (h.2 d hd), List.forall_mem_singleton.2 hword⟩
        exact hshort (.word (digits ++ [c])) ⟨⟨by simp, hall⟩, c, by simp, by simpa using hdigit⟩
          (isPrefix_snoc hc) (by simp [spelling])
    · -- a dot and one digit make a decimal
      rintro c ⟨tail, rfl⟩
      apply Bool.eq_false_iff.2
      intro hdigit
      exact hshort (.decimal digits [c]) ⟨h, by simp, List.forall_mem_singleton.2 hdigit⟩
        ⟨tail, by simp [spelling]⟩ (by simp [spelling])
  | decimal whole fraction =>
    intro c hc
    apply Bool.eq_false_iff.2
    intro hdigit
    have hall : ∀ d ∈ fraction ++ [c], d.isDigit = true :=
      List.forall_mem_append.2 ⟨h.2.2, List.forall_mem_singleton.2 hdigit⟩
    have hprefix : (whole ++ '.' :: fraction) ++ [c] <+: (whole ++ '.' :: fraction) ++ rest :=
      isPrefix_snoc hc
    exact hshort (.decimal whole (fraction ++ [c])) ⟨h.1, by simp, hall⟩
      (by simpa [spelling] using hprefix) (by simp [spelling])
  | word letters =>
    intro c hc
    apply Bool.eq_false_iff.2
    intro hword
    rcases h with ⟨⟨-, hletters⟩, d, hd, hnot⟩
    have hall : ∀ e ∈ letters ++ [c], isWordChar e = true :=
      List.forall_mem_append.2 ⟨hletters, List.forall_mem_singleton.2 hword⟩
    exact hshort (.word (letters ++ [c])) ⟨⟨by simp, hall⟩, d, by simp [hd], hnot⟩
      (isPrefix_snoc hc) (by simp [spelling])
  | comma => trivial

theorem isBlank_of_first? {c : Char} {tail rest : List Char} {lexeme : Lexeme}
    (h : first? (c :: tail) = some (lexeme, rest)) : isBlank c = false := by
  apply Bool.eq_false_iff.2
  intro hblank
  rw [first?] at h
  -- quotes, word characters and commas are no blanks
  split at h
  · rename_i hquote
    rcases isQuote_iff.1 hquote with rfl | rfl
    · exact absurd hblank (by decide)
    · exact absurd hblank (by decide)
  · split at h
    · rename_i hword
      exact absurd hblank (by simp [isBlank_of_isWordChar hword])
    · split at h
      · rename_i hcomma
        rw [beq_iff_eq.1 hcomma] at hblank
        exact absurd hblank (by decide)
      · exact absurd h (by simp)

end Lexeme

end StoreCommand
