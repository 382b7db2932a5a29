import Mathlib.Data.List.TakeWhile
import StoreCommand.Proofs.Lexeme.Passage

/-!
# Errors that more text can repair

Scanning stops at the first place where no lexeme begins.  Does more text at the end help?  At an
open string it does, if it has the quote that is missing.  At a character that no lexeme begins with
it does not, but for one case: the character is a dot right behind an integer and ends the text, and
what is added begins with a digit.  Then the dot is a decimal point.
-/

namespace StoreCommand

/-! ### Places where scanning stops -/

namespace Lexeme

@[simp] theorem spelling_integer (digits : List Char) : (integer digits).spelling = digits := rfl

@[simp] theorem spelling_decimal (whole fraction : List Char) :
    (decimal whole fraction).spelling = whole ++ '.' :: fraction := rfl

/-- A quote begins a lexeme exactly if it occurs again. -/
theorem first?_quote_eq_none_iff {quote : Char} {rest : List Char} (h : isQuote quote = true) :
    first? (quote :: rest) = none ↔ quote ∉ rest := by
  rw [first?, if_pos h, string?]
  constructor
  · intro hnone hmem
    split at hnone
    · rename_i hdrop
      have hall := List.dropWhile_eq_nil_iff.1 hdrop quote hmem
      exact absurd hall (by simp)
    · exact absurd hnone (by simp)
  · intro hmem
    have hdrop : rest.dropWhile (· != quote) = [] := by
      apply List.dropWhile_eq_nil_iff.2
      intro c hc
      exact bne_iff_ne.2 fun heq => hmem (heq ▸ hc)
    rw [hdrop]

/-- Whether a lexeme begins with a character that is no quote depends on this character alone. -/
theorem first?_eq_none_of_not_quote {c : Char} {rest : List Char} (hquote : isQuote c = false)
    (h : first? (c :: rest) = none) (other : List Char) : first? (c :: other) = none := by
  rw [first?, if_neg (by simp [hquote])] at h ⊢
  split at h
  · exact absurd h (by simp)
  · -- neither a word nor a comma begins with it
    rename_i hword
    rw [if_neg hword]
    split at h
    · exact absurd h (by simp)
    · rename_i hcomma
      rw [if_neg hcomma]

end Lexeme

/-- Only a quote that is not closed leaves a string open. -/
theorem cause_eq_unterminatedString_iff {c : Char} :
    ScanError.Cause.of c = .unterminatedString ↔ isQuote c = true := by
  cases hquote : isQuote c <;> simp [ScanError.Cause.of, hquote]

theorem cause_eq_illegalCharacter_iff {c d : Char} :
    ScanError.Cause.of c = .illegalCharacter d ↔ isQuote c = false ∧ c = d := by
  cases hquote : isQuote c <;> simp [ScanError.Cause.of, hquote]

theorem error_of_map {result : Except ScanError (List Token)} {f : List Token → List Token}
    {error : ScanError} (h : result.map f = .error error) : result = .error error := by
  cases result with
  | ok tokens => exact absurd h (by simp [Except.map])
  | error other => exact h

/-- Scanning only stops behind the lexemes that it takes. -/
theorem le_place_of_isLongest {position place : Nat} {text rest : List Char} {lexeme : Lexeme}
    {cause : ScanError.Cause} (h : lexeme.IsLongest text rest)
    (herror : scan position text = .error ⟨cause, place⟩) :
    position + lexeme.spelling.length ≤ place := by
  rw [scan_of_isLongest h] at herror
  rcases exists_passed_of_error (error_of_map herror) with ⟨front, -, -, -, -, hplace, -⟩
  omega

/-- Where a lexeme begins there is no error. -/
theorem scan_ne_error_of_first? {position : Nat} {text : List Char}
    (h : Lexeme.first? text ≠ none) (cause : ScanError.Cause) :
    scan position text ≠ .error ⟨cause, position⟩ := by
  intro herror
  cases hfirst : Lexeme.first? text with
  | none => exact h hfirst
  | some taken =>
    have hlongest := Lexeme.first?_eq_some_iff.1 hfirst
    have hlength := List.length_pos_iff.2 (Lexeme.spelling_ne_nil hlongest.wellFormed)
    have hplace := le_place_of_isLongest hlongest herror
    omega

/-! ### Adding text -/

/-- More text makes a decimal point of a dot: the dot ends the text, the tokens in front of it end
    with an integer that it touches, and a digit is added. -/
structure Completes (text : String) (place : Nat) (c : Char) (more : String) : Prop where
  dot : c = '.'
  last : place + 1 = text.length
  integer : ∃ earlier token, tokenize (textBefore place text) = .ok (earlier ++ [token]) ∧
    token.kind = .integer ∧ token.position + token.text.length = place
  digit : ∃ d, more.toList.head? = some d ∧ d.isDigit = true

theorem length_text_token {digits : List Char} (position : Nat) :
    ((Lexeme.integer digits).token position).text.length = digits.length := by
  rw [Lexeme.token, ← String.length_toList, String.toList_ofList]

/-- If the dot does not become a decimal point, everything in front of the error is scanned as
    before. -/
theorem passed_of_not_completes {text more : String} {front rest : List Char} {c : Char}
    {tokens : List Token} (htext : text.toList = front ++ c :: rest)
    (h : Passed (c :: rest) 0 front tokens) (hnot : ¬ Completes text front.length c more) :
    Passed (c :: rest ++ more.toList) 0 front tokens := by
  apply h.extend
  rintro start lexeme earlier hfront rfl hwell hends
  apply hends.extend (by simp)
  rintro hrest digits rfl d hd
  -- the only seam left: an integer, the dot at the end of the text, and a new digit
  obtain ⟨rfl, rfl⟩ := List.cons.inj hrest
  apply Bool.eq_false_iff.2
  intro hdigit
  refine hnot ⟨rfl, ?_, ⟨earlier, (Lexeme.integer digits).token start.length, ?_, rfl, ?_⟩, d, hd,
    hdigit⟩
  · rw [← String.length_toList, htext, List.length_append]
    rfl
  · rw [textBefore_of_append htext, tokenize_of_passed h, Nat.zero_add]
  · rw [position_token, length_text_token, hfront, List.length_append, Lexeme.spelling_integer]

/-- Behind digits, a dot in front of a digit is a decimal point. -/
theorem exists_isLongest_decimal {digits : List Char} {d : Char}
    (h : (Lexeme.integer digits).WellFormed) (hdigit : d.isDigit = true) (tail : List Char) :
    ∃ lexeme rest, Lexeme.IsLongest lexeme (digits ++ '.' :: d :: tail) rest ∧
      digits.length < lexeme.spelling.length := by
  have hdecimal : (Lexeme.decimal digits [d]).WellFormed :=
    ⟨h, by simp, List.forall_mem_singleton.2 hdigit⟩
  have hprefix : (Lexeme.decimal digits [d]).spelling <+: digits ++ '.' :: d :: tail :=
    ⟨tail, by simp⟩
  rcases Lexeme.exists_first?_of_isPrefix hdecimal hprefix with ⟨lexeme, rest, hfirst, hle⟩
  refine ⟨lexeme, rest, Lexeme.first?_eq_some_iff.1 hfirst, ?_⟩
  rw [Lexeme.spelling_decimal, List.length_append, List.length_cons] at hle
  omega

theorem exists_digits_of_kind {lexeme : Lexeme} {position : Nat}
    (h : (lexeme.token position).kind = .integer) : ∃ digits, lexeme = .integer digits := by
  cases lexeme with
  | integer digits => exact ⟨digits, rfl⟩
  | word letters =>
    rw [Lexeme.token] at h
    split at h
    · exact absurd h (by simp)
    · exact absurd h (by simp)
  | _ => exact absurd h (by simp [Lexeme.token])

/-- An integer at the very end of a passed part is made of the digits that end it. -/
theorem exists_integer_at_end {front rest : List Char} {earlier : List Token} {token : Token}
    (h : Passed rest 0 front (earlier ++ [token])) (hkind : token.kind = .integer)
    (hend : token.position + token.text.length = front.length) :
    ∃ first digits, front = first ++ digits ∧ (Lexeme.integer digits).WellFormed ∧
      Passed (digits ++ rest) 0 first earlier := by
  rcases h.split rfl with ⟨first, second, rfl, hposition, hfirst, hsecond⟩
  rcases hsecond.exists_lexeme rfl with ⟨lexeme, behind, rfl, htoken, hwell, -, -⟩
  obtain ⟨digits, rfl⟩ := exists_digits_of_kind (htoken ▸ hkind)
  have hlength : token.text.length = digits.length := by rw [htoken, length_text_token]
  rw [List.length_append, List.length_append, Lexeme.spelling_integer] at hend
  obtain rfl : behind = [] := List.length_eq_zero_iff.1 (by omega)
  rw [Lexeme.spelling_integer, List.append_nil] at hfirst ⊢
  exact ⟨first, digits, rfl, hwell, hfirst⟩

theorem tokenize_ne_error_of_completes {text more : String} {front rest : List Char} {c : Char}
    {tokens : List Token} (htext : text.toList = front ++ c :: rest)
    (h : Passed (c :: rest) 0 front tokens) (hcompletes : Completes text front.length c more)
    (cause : ScanError.Cause) : tokenize (text ++ more) ≠ .error ⟨cause, front.length⟩ := by
  obtain ⟨rfl, hlast, ⟨earlier, token, htokens, hkind, hend⟩, d, hd, hdigit⟩ := hcompletes
  obtain rfl : rest = [] := by
    rw [← String.length_toList, htext, List.length_append, List.length_cons] at hlast
    exact List.length_eq_zero_iff.1 (by omega)
  rw [textBefore_of_append htext, tokenize_of_passed h] at htokens
  obtain rfl := Except.ok.inj htokens
  rcases exists_integer_at_end h hkind hend with ⟨first, digits, rfl, hwell, hfirst⟩
  -- the digits and the dot are scanned anew, and now as one number
  have hextended : Passed (digits ++ ['.'] ++ more.toList) 0 first earlier := by
    apply hfirst.extend
    intro start lexeme others _ _ _ hends
    apply hends.extend (by simp)
    intro hdot
    have hdotLength := congrArg List.length hdot
    have hdigits := List.length_pos_iff.2 hwell.1
    simp only [List.length_append, List.length_singleton] at hdotLength
    omega
  obtain ⟨tail, hmore⟩ : ∃ tail, more.toList = d :: tail := List.head?_eq_some_iff.1 hd
  have hwhole : (text ++ more).toList = first ++ (digits ++ '.' :: d :: tail) := by
    rw [String.toList_append, htext, hmore]
    simp
  intro herror
  rw [hmore, List.append_assoc] at hextended
  rw [tokenize, hwhole] at herror
  have hrest := (scan_of_passed hextended).symm.trans herror
  rcases exists_isLongest_decimal hwell hdigit tail with ⟨decimal, after, hlongest, hlt⟩
  have hplace := le_place_of_isLongest hlongest (error_of_map hrest)
  rw [List.length_append] at hplace
  omega

theorem tokenize_append_of_passed {text more : String} {front rest : List Char} {c : Char}
    {tokens : List Token} (htext : text.toList = front ++ c :: rest)
    (h : Passed (c :: rest ++ more.toList) 0 front tokens) :
    tokenize (text ++ more) =
      (scan front.length (c :: (rest ++ more.toList))).map (tokens ++ ·) := by
  have hscan := scan_of_passed h
  rw [Nat.zero_add] at hscan
  rw [tokenize, String.toList_append, htext, List.append_assoc, hscan, List.cons_append]

/-- A character that no lexeme begins with is refused again, unless it becomes a decimal point. -/
theorem tokenize_append_illegal_iff {text more : String} {front rest : List Char} {c : Char}
    {tokens : List Token} (htext : text.toList = front ++ c :: rest)
    (h : Passed (c :: rest) 0 front tokens) (hkept : isBlank c = false)
    (hstuck : Lexeme.first? (c :: rest) = none) (hquote : isQuote c = false) :
    tokenize (text ++ more) = .error ⟨.illegalCharacter c, front.length⟩ ↔
      ¬ Completes text front.length c more := by
  constructor
  · intro hsame hcompletes
    exact tokenize_ne_error_of_completes htext h hcompletes _ hsame
  · intro hnot
    have hnone := Lexeme.first?_eq_none_of_not_quote hquote hstuck (rest ++ more.toList)
    rw [tokenize_append_of_passed htext (passed_of_not_completes htext h hnot),
      scan_of_first?_eq_none hkept hnone, cause_eq_illegalCharacter_iff.2 ⟨hquote, rfl⟩]
    rfl

/-- An open string stays open exactly until its quote comes. -/
theorem tokenize_append_open_iff {text more : String} {front rest : List Char} {quote : Char}
    {tokens : List Token} (htext : text.toList = front ++ quote :: rest)
    (h : Passed (quote :: rest) 0 front tokens) (hkept : isBlank quote = false)
    (hopen : quote ∉ rest) (hquote : isQuote quote = true) :
    tokenize (text ++ more) = .error ⟨.unterminatedString, front.length⟩ ↔
      quote ∉ more.toList := by
  have hnot : ¬ Completes text front.length quote more := by
    intro hcompletes
    rw [hcompletes.dot] at hquote
    exact absurd hquote (by decide)
  rw [tokenize_append_of_passed htext (passed_of_not_completes htext h hnot)]
  constructor
  · -- with its quote the string is a lexeme, and an error comes later at the earliest
    intro herror hmem
    refine scan_ne_error_of_first? ?_ _ (error_of_map herror)
    intro hnone
    have hclosed := (Lexeme.first?_quote_eq_none_iff hquote).1 hnone
    exact hclosed (List.mem_append_right rest hmem)
  · intro hmem
    have hnone : Lexeme.first? (quote :: (rest ++ more.toList)) = none := by
      apply (Lexeme.first?_quote_eq_none_iff hquote).2
      intro hclosed
      exact (List.mem_append.1 hclosed).elim hopen hmem
    rw [scan_of_first?_eq_none hkept hnone, cause_eq_unterminatedString_iff.2 hquote]
    rfl

/-- Which errors more text can repair.  The text in front of an error has tokens.  An illegal
    character stays where it is whatever is added, but for a dot that becomes a decimal point.  An
    open string stays open exactly until its quote comes. -/
theorem tokenize_append_of_error {text : String} {cause : ScanError.Cause} {place : Nat}
    (h : tokenize text = .error ⟨cause, place⟩) :
    place < text.length ∧ (∃ tokens, tokenize (textBefore place text) = .ok tokens) ∧
    (∀ c, cause = .illegalCharacter c → text.toList[place]? = some c ∧ ∀ more,
      (tokenize (text ++ more) = .error ⟨cause, place⟩ ↔ ¬ Completes text place c more) ∧
      (Completes text place c more → ∀ other, tokenize (text ++ more) ≠ .error ⟨other, place⟩)) ∧
    (cause = .unterminatedString → ∃ quote, (quote = '"' ∨ quote = '\'') ∧
      text.toList[place]? = some quote ∧ quote ∉ text.toList.drop (place + 1) ∧
      ∀ more, tokenize (text ++ more) = .error ⟨cause, place⟩ ↔ quote ∉ more.toList) := by
  rcases exists_passed_of_error h with
    ⟨front, c, rest, tokens, htext, hplace, hpassed, hkept, hstuck, rfl⟩
  obtain rfl : place = front.length := by omega
  have hchar : text.toList[front.length]? = some c := by
    rw [htext]
    simp
  have hbehind : text.toList.drop (front.length + 1) = rest := by
    rw [htext]
    simp
  refine ⟨?_, ?_, ?_, ?_⟩
  · rw [← String.length_toList, htext, List.length_append, List.length_cons]
    omega
  · rw [textBefore_of_append htext]
    exact ⟨tokens, tokenize_of_passed hpassed⟩
  · intro d hcause
    obtain ⟨hquote, rfl⟩ := cause_eq_illegalCharacter_iff.1 hcause
    rw [hcause]
    exact ⟨hchar, fun more =>
      ⟨tokenize_append_illegal_iff htext hpassed hkept hstuck hquote,
        tokenize_ne_error_of_completes htext hpassed⟩⟩
  · intro hcause
    have hquote := cause_eq_unterminatedString_iff.1 hcause
    have hopen := (Lexeme.first?_quote_eq_none_iff hquote).1 hstuck
    rw [hcause]
    exact ⟨c, isQuote_iff.1 hquote, hchar, by rwa [hbehind],
      fun more => tokenize_append_open_iff htext hpassed hkept hopen hquote⟩

/-- A digit repairs the dot behind an integer and a letter does not, and an open string waits for
    its own quote. -/
theorem tokenize_append_of_dot_and_quote :
    (tokenize "put 12." = .error ⟨.illegalCharacter '.', 6⟩ ∧
      tokenize ("put 12." ++ "x") = .error ⟨.illegalCharacter '.', 6⟩ ∧
      Completes "put 12." 6 '.' "5!" ∧ ∀ other, tokenize ("put 12." ++ "5!") ≠ .error ⟨other, 6⟩) ∧
    (tokenize "get 'é\"" = .error ⟨.unterminatedString, 4⟩ ∧
      tokenize ("get 'é\"" ++ "\"!") = .error ⟨.unterminatedString, 4⟩ ∧
      tokenize ("get 'é\"" ++ "'!") ≠ .error ⟨.unterminatedString, 4⟩) := by
  have hdot : tokenize "put 12." = .error ⟨.illegalCharacter '.', 6⟩ := by decide +kernel
  have hquote : tokenize "get 'é\"" = .error ⟨.unterminatedString, 4⟩ := by decide +kernel
  have hletter : ¬ Completes "put 12." 6 '.' "x" := by
    rintro ⟨-, -, -, d, hd, hdigit⟩
    obtain rfl : 'x' = d := by simpa using hd
    exact absurd hdigit (by decide)
  have hdigit : Completes "put 12." 6 '.' "5!" :=
    ⟨rfl, by decide +kernel, ⟨[⟨.keyword .put, "put", 0⟩], ⟨.integer, "12", 4⟩, by decide +kernel,
      rfl, by decide +kernel⟩, '5', by decide +kernel, by decide⟩
  have hrepairs := ((tokenize_append_of_error hdot).2.2.1 '.' rfl).2
  obtain ⟨quote, hsort, hplace, -, hopen⟩ := (tokenize_append_of_error hquote).2.2.2 rfl
  obtain rfl : quote = '\'' := by
    rcases hsort with rfl | rfl
    · exact absurd hplace (by decide +kernel)
    · rfl
  refine ⟨⟨hdot, (hrepairs "x").1.2 hletter, hdigit, (hrepairs "5!").2 hdigit⟩, hquote,
    (hopen "\"!").2 (by decide +kernel), ?_⟩
  intro hstays
  exact absurd ((hopen "'!").1 hstays) (by decide +kernel)

end StoreCommand
