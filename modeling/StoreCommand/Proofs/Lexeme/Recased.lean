import Mathlib.Data.List.Forall2
import StoreCommand.Command
import StoreCommand.Proofs.Lexeme.Repair
import StoreCommand.Proofs.Text.Letters

/-!
# The case of letters

Changing the case of letters outside strings does not change where lexemes begin and end, because
all that scanning asks of a letter is whether it is one.  So two texts of which one is the other in
another case are scanned in step: they have the same error, or tokens that differ in the letters of
plain words only.

Keywords are always spelled in lower case in their tokens.  If nothing but letters of keywords is
changed, the tokens are therefore the same.  This takes one more fact: the text of a word stands in
the command at the position of its token (`getElem?_text_of_word`), where no other token is
(`eq_of_spans`).
-/

namespace StoreCommand

/-! ### Texts in another case -/

/-- The quote that is open behind a character, if `opened` is open in front of it. -/
def quoteAfter (opened : Option Char) (c : Char) : Option Char :=
  match opened with
  | none => if isQuote c then some c else none
  | some quote => if c = quote then none else some quote

/-- The second text is the first one with some letters in another case, all of them outside strings.
    At the start the string of the quote `opened` is open, if there is one. -/
def Recased : Option Char → List Char → List Char → Prop
  | _, [], [] => True
  | opened, c :: rest, d :: others =>
    (if opened.isSome then c = d else c.toLower = d.toLower) ∧
      Recased (quoteAfter opened c) rest others
  | _, _, _ => False

instance decidableRecased : ∀ opened text other, Decidable (Recased opened text other)
  | _, [], [] => .isTrue trivial
  | opened, c :: rest, _ :: others =>
    have := decidableRecased (quoteAfter opened c) rest others
    inferInstanceAs (Decidable (_ ∧ _))
  | _, [], _ :: _ => .isFalse id
  | _, _ :: _, [] => .isFalse id

theorem recased_cons {opened : Option Char} {c : Char} {rest text : List Char}
    (h : Recased opened (c :: rest) text) :
    ∃ d others, text = d :: others ∧ c.toLower = d.toLower ∧ (opened.isSome = true → c = d) ∧
      Recased (quoteAfter opened c) rest others := by
  cases text with
  | nil => exact absurd h id
  | cons d others =>
    refine ⟨d, others, rfl, ?_, fun hopened => ?_, h.2⟩
    · have hcase := h.1
      split at hcase
      · rw [hcase]
      · exact hcase
    · have hcase := h.1
      rwa [if_pos hopened] at hcase

theorem recased_nil {opened : Option Char} {text : List Char} (h : Recased opened [] text) :
    text = [] := by
  cases text with
  | nil => rfl
  | cons => exact absurd h id

/-- Characters that are not quotes keep the string closed. -/
theorem exists_of_recased_append {run rest text : List Char} (hrun : ∀ c ∈ run, isQuote c = false)
    (h : Recased none (run ++ rest) text) :
    ∃ other behind, text = other ++ behind ∧ lowered run = lowered other ∧
      Recased none rest behind := by
  induction run generalizing text with
  | nil => exact ⟨[], text, rfl, rfl, h⟩
  | cons c run ih =>
    rcases recased_cons h with ⟨d, others, rfl, hcase, -, hlater⟩
    rw [quoteAfter, hrun c List.mem_cons_self, if_neg (by decide)] at hlater
    rcases ih (fun e he => hrun e (List.mem_cons_of_mem c he)) hlater with
      ⟨other, behind, rfl, hlowered, hbehind⟩
    refine ⟨d :: other, behind, rfl, ?_, hbehind⟩
    simp only [lowered, List.map_cons] at hlowered ⊢
    rw [hcase, hlowered]

/-- A string stays as it is up to its closing quote. -/
theorem exists_of_recased_string {quote : Char} {body rest text : List Char} (hbody : quote ∉ body)
    (h : Recased (some quote) (body ++ quote :: rest) text) :
    ∃ behind, text = body ++ quote :: behind ∧ Recased none rest behind := by
  induction body generalizing text with
  | nil =>
    rcases recased_cons h with ⟨d, others, rfl, -, hsame, hlater⟩
    obtain rfl := hsame rfl
    rw [quoteAfter, if_pos rfl] at hlater
    exact ⟨others, rfl, hlater⟩
  | cons c body ih =>
    rcases recased_cons h with ⟨d, others, rfl, -, hsame, hlater⟩
    obtain rfl := hsame rfl
    rw [quoteAfter, if_neg (ne_of_mem_of_not_mem List.mem_cons_self hbody)] at hlater
    rcases ih (fun hmem => hbody (List.mem_cons_of_mem c hmem)) hlater with ⟨behind, rfl, hbehind⟩
    exact ⟨behind, rfl, hbehind⟩

/-- A string that is never closed stays as it is. -/
theorem eq_of_recased_open {quote : Char} {rest text : List Char} (hrest : quote ∉ rest)
    (h : Recased (some quote) rest text) : text = rest := by
  induction rest generalizing text with
  | nil => exact recased_nil h
  | cons c rest ih =>
    rcases recased_cons h with ⟨d, others, rfl, -, hsame, hlater⟩
    obtain rfl := hsame rfl
    rw [quoteAfter, if_neg (ne_of_mem_of_not_mem List.mem_cons_self hrest)] at hlater
    rw [ih (fun hmem => hrest (List.mem_cons_of_mem c hmem)) hlater]

theorem exists_head_of_recased {rest behind : List Char} (h : Recased none rest behind) {d : Char}
    (hd : d ∈ behind.head?) : ∃ c ∈ rest.head?, c.toLower = d.toLower := by
  cases rest with
  | nil =>
    rw [recased_nil h] at hd
    exact absurd hd (by simp)
  | cons c tail =>
    rcases recased_cons h with ⟨e, others, rfl, hcase, -, -⟩
    obtain rfl : e = d := by simpa using hd
    exact ⟨c, rfl, hcase⟩

theorem exists_dot_of_recased {rest behind : List Char} (h : Recased none rest behind) {d : Char}
    (hd : ['.', d] <+: behind) : ∃ c, ['.', c] <+: rest ∧ c.toLower = d.toLower := by
  obtain ⟨tail, rfl⟩ := hd
  cases rest with
  | nil => exact absurd (recased_nil h) (by simp)
  | cons c rest =>
    rcases recased_cons h with ⟨e, others, heq, hcase, -, hlater⟩
    obtain ⟨rfl, rfl⟩ := List.cons.inj heq
    -- a dot has no case, so the first text has it too
    obtain rfl : '.' = c := (eq_of_toLower_eq hcase.symm (by decide)).symm
    cases rest with
    | nil => exact absurd (recased_nil hlater) (by simp)
    | cons c rest =>
      rcases recased_cons hlater with ⟨e, others, heq, hcase, -, -⟩
      obtain ⟨rfl, -⟩ := List.cons.inj heq
      exact ⟨c, ⟨rest, rfl⟩, hcase⟩

namespace Lexeme

/-! ### Lexemes in another case -/

/-- The same lexeme, or two words that differ in the case of their letters. -/
inductive SameUpToCase : Lexeme → Lexeme → Prop where
  | same (lexeme : Lexeme) : SameUpToCase lexeme lexeme
  | word {letters others : List Char} (case : lowered letters = lowered others) :
      SameUpToCase (.word letters) (.word others)

theorem length_spelling_of_sameUpToCase {lexeme other : Lexeme} (h : SameUpToCase lexeme other) :
    other.spelling.length = lexeme.spelling.length := by
  cases h with
  | same => rfl
  | word case =>
    rw [spelling, spelling, ← length_lowered, ← case, length_lowered]

/-- Numbers and commas have no letters. -/
theorem plain_or_word_or_quoted {lexeme : Lexeme} (h : lexeme.WellFormed) :
    (∀ c ∈ lexeme.spelling, isQuote c = false ∧ c.isAlpha = false) ∨
      (∃ letters, lexeme = .word letters) ∨ ∃ quote body, lexeme = .quoted quote body := by
  have hdigit : ∀ c : Char, c.isDigit = true → isQuote c = false ∧ c.isAlpha = false :=
    fun c hc => ⟨isQuote_of_isWordChar (isWordChar_of_isDigit hc), isAlpha_of_isDigit hc⟩
  cases lexeme with
  | quoted quote body => exact Or.inr (Or.inr ⟨quote, body, rfl⟩)
  | word letters => exact Or.inr (Or.inl ⟨letters, rfl⟩)
  | integer digits => exact Or.inl fun c hc => hdigit c (h.2 c hc)
  | decimal whole fraction =>
    refine Or.inl fun c hc => ?_
    rcases List.mem_append.1 hc with hwhole | htail
    · exact hdigit c (h.1.2 c hwhole)
    · rcases List.mem_cons.1 htail with rfl | hfraction
      · decide
      · exact hdigit c (h.2.2 c hfraction)
  | comma =>
    refine Or.inl fun c hc => ?_
    obtain rfl := List.mem_singleton.1 hc
    decide

theorem wellFormed_word_of_lowered_eq {letters others : List Char}
    (h : (word letters).WellFormed) (hlowered : lowered letters = lowered others) :
    (word others).WellFormed := by
  rcases h with ⟨⟨hne, hword⟩, c, hc, hdigit⟩
  refine ⟨⟨?_, ?_⟩, ?_⟩
  · rintro rfl
    exact hne (List.map_eq_nil_iff.1 hlowered)
  · intro d hd
    rcases exists_mem_of_lowered_eq hlowered.symm hd with ⟨e, he, hcase⟩
    rw [← isWordChar_eq_of_toLower_eq hcase]
    exact hword e he
  · rcases exists_mem_of_lowered_eq hlowered hc with ⟨d, hd, hcase⟩
    exact ⟨d, hd, by rw [isDigit_eq_of_toLower_eq hcase, hdigit]⟩

/-- A lexeme at the front of a text is one in another case, too. -/
theorem exists_of_recased {lexeme : Lexeme} {rest text : List Char} (hwell : lexeme.WellFormed)
    (h : Recased none (lexeme.spelling ++ rest) text) :
    ∃ (other : Lexeme) (behind : List Char), text = other.spelling ++ behind ∧
      other.WellFormed ∧ SameUpToCase lexeme other ∧ Recased none rest behind := by
  rcases plain_or_word_or_quoted hwell with hplain | ⟨letters, rfl⟩ | ⟨quote, body, rfl⟩
  · -- nothing in it has another case
    rcases exists_of_recased_append (fun c hc => (hplain c hc).1) h with
      ⟨run, behind, rfl, hlowered, hbehind⟩
    obtain rfl := eq_of_lowered_eq hlowered fun c hc => (hplain c hc).2
    exact ⟨lexeme, behind, rfl, hwell, .same lexeme, hbehind⟩
  · rcases exists_of_recased_append
      (fun c hc => isQuote_of_isWordChar (hwell.1.2 c hc)) h with
      ⟨run, behind, rfl, hlowered, hbehind⟩
    exact ⟨.word run, behind, rfl, wellFormed_word_of_lowered_eq hwell hlowered, .word hlowered,
      hbehind⟩
  · -- the opening quote is outside strings, everything up to the closing one is inside
    have hsplit : (quoted quote body).spelling ++ rest = quote :: (body ++ quote :: rest) := by
      simp [spelling]
    rw [hsplit] at h
    rcases recased_cons h with ⟨d, others, rfl, hcase, -, hlater⟩
    have halpha : quote.isAlpha = false := by
      rcases isQuote_iff.1 hwell.1 with rfl | rfl
      · decide
      · decide
    obtain rfl : d = quote := eq_of_toLower_eq hcase halpha
    rw [quoteAfter, if_pos hwell.1] at hlater
    rcases exists_of_recased_string hwell.2 hlater with ⟨behind, rfl, hbehind⟩
    exact ⟨.quoted d body, behind, by simp [spelling], hwell, .same _, hbehind⟩

theorem endsBefore_of_recased {lexeme other : Lexeme} {rest behind : List Char}
    (hcase : SameUpToCase lexeme other) (h : lexeme.EndsBefore rest)
    (hrecased : Recased none rest behind) : other.EndsBefore behind := by
  have hword : (∀ c ∈ rest.head?, isWordChar c = false) →
      ∀ d ∈ behind.head?, isWordChar d = false := by
    intro hrest d hd
    rcases exists_head_of_recased hrecased hd with ⟨c, hc, hsame⟩
    rw [isWordChar_eq_of_toLower_eq hsame]
    exact hrest c hc
  cases hcase with
  | word => exact hword h
  | same =>
    cases lexeme with
    | quoted => trivial
    | comma => trivial
    | word => exact hword h
    | integer =>
      refine ⟨hword h.1, fun d hd => ?_⟩
      rcases exists_dot_of_recased hrecased hd with ⟨c, hc, hsame⟩
      rw [isDigit_eq_of_toLower_eq hsame]
      exact h.2 c hc
    | decimal =>
      intro d hd
      rcases exists_head_of_recased hrecased hd with ⟨c, hc, hsame⟩
      rw [isDigit_eq_of_toLower_eq hsame]
      exact h c hc

end Lexeme

/-! ### Tokens in another case -/

/-- Two tokens that differ in the case of letters at most, and only if they are plain words. -/
structure Token.SameUpToCase (token other : Token) : Prop where
  kind : other.kind = token.kind
  position : other.position = token.position
  text : token.kind ≠ .word → other.text = token.text
  lowered : lowered other.text.toList = lowered token.text.toList

theorem Token.SameUpToCase.refl (token : Token) : token.SameUpToCase token :=
  ⟨rfl, rfl, fun _ => rfl, rfl⟩

theorem sameUpToCase_token {lexeme other : Lexeme} (h : lexeme.SameUpToCase other)
    (position : Nat) : (lexeme.token position).SameUpToCase (other.token position) := by
  cases h with
  | same => exact .refl _
  | @word letters others case =>
    rw [Lexeme.token, Lexeme.token, ← case]
    -- which keyword a word is depends on its lowered letters alone
    split
    · exact .refl _
    · refine ⟨rfl, rfl, fun hkind => absurd rfl hkind, ?_⟩
      rw [String.toList_ofList, String.toList_ofList, case]

theorem isAlpha_of_isBlank {c : Char} (h : isBlank c = true) : c.isAlpha = false := by
  apply Bool.eq_false_iff.2
  intro halpha
  exact absurd h (by simp [isBlank_of_isWordChar (isWordChar_of_isAlpha halpha)])

/-- What is passed is passed in another case, in step. -/
theorem exists_passed_of_recased {rest front text : List Char} {position : Nat}
    {tokens : List Token} (h : Passed rest position front tokens)
    (hrecased : Recased none (front ++ rest) text) :
    ∃ first behind others, text = first ++ behind ∧ first.length = front.length ∧
      Passed behind position first others ∧ List.Forall₂ Token.SameUpToCase tokens others ∧
      Recased none rest behind := by
  induction h generalizing text with
  | nothing position => exact ⟨[], text, [], rfl, rfl, .nothing position, .nil, hrecased⟩
  | @blank position c front tokens skipped _ ih =>
    rcases recased_cons hrecased with ⟨d, others, rfl, hcase, -, hlater⟩
    obtain rfl : d = c := eq_of_toLower_eq hcase (isAlpha_of_isBlank skipped)
    rw [quoteAfter, isQuote_of_isBlank skipped, if_neg (by decide)] at hlater
    rcases ih hlater with ⟨first, behind, others, rfl, hlength, hpassed, hothers, hbehind⟩
    exact ⟨d :: first, behind, others, rfl, by simp [hlength], .blank skipped hpassed, hothers,
      hbehind⟩
  | @lexeme position lexeme front tokens wellFormed ends _ ih =>
    rw [List.append_assoc] at hrecased
    rcases Lexeme.exists_of_recased wellFormed hrecased with
      ⟨other, text, rfl, hwell, hcase, hlater⟩
    rcases ih hlater with ⟨first, behind, others, rfl, hlength, hpassed, hothers, hbehind⟩
    have hsame := Lexeme.length_spelling_of_sameUpToCase hcase
    refine ⟨other.spelling ++ first, behind, other.token position :: others, by simp, ?_, ?_,
      .cons (sameUpToCase_token hcase position) hothers, hbehind⟩
    · rw [List.length_append, List.length_append, hsame, hlength]
    · refine .lexeme hwell (Lexeme.endsBefore_of_recased hcase ends hlater) ?_
      rwa [hsame]

/-- Where scanning stops it stops in another case, too, and for the same reason. -/
theorem scan_eq_of_stuck {rest behind : List Char} (h : Stuck rest)
    (hrecased : Recased none rest behind) (position : Nat) :
    scan position behind = scan position rest := by
  cases h with
  | finished => rw [recased_nil hrecased]
  | @failed c rest kept stuck =>
    rcases recased_cons hrecased with ⟨d, others, rfl, hcase, -, hlater⟩
    have halpha : c.isAlpha = false := by
      apply Bool.eq_false_iff.2
      intro halpha
      rw [Lexeme.first?_of_isWordChar (isWordChar_of_isAlpha halpha)] at stuck
      exact absurd stuck (by simp)
    obtain rfl : d = c := eq_of_toLower_eq hcase halpha
    have hstuck : Lexeme.first? (d :: others) = none := by
      cases hquote : isQuote d with
      | true =>
        -- the string that is never closed here is not closed there either
        rw [quoteAfter, if_pos hquote] at hlater
        rwa [eq_of_recased_open ((Lexeme.first?_quote_eq_none_iff hquote).1 stuck) hlater]
      | false => exact Lexeme.first?_eq_none_of_not_quote hquote stuck others
    rw [scan_of_first?_eq_none kept stuck, scan_of_first?_eq_none kept hstuck]

/-- Two texts of which one is the other in another case have the same error, or tokens that differ
    in the case of plain words only. -/
theorem tokenize_sameUpToCase {text other : String}
    (h : Recased none text.toList other.toList) :
    (∃ error, tokenize text = .error error ∧ tokenize other = .error error) ∨
      ∃ tokens others, tokenize text = .ok tokens ∧ tokenize other = .ok others ∧
        List.Forall₂ Token.SameUpToCase tokens others := by
  rcases exists_passed 0 text.toList with ⟨front, rest, tokens, htext, hpassed, hstuck⟩
  rw [htext] at h
  rcases exists_passed_of_recased hpassed h with
    ⟨first, behind, others, hother, hlength, hfirst, hothers, hbehind⟩
  rw [tokenize, tokenize, htext, hother, scan_of_passed hpassed, scan_of_passed hfirst, hlength,
    scan_eq_of_stuck hstuck hbehind]
  cases scan (0 + front.length) rest with
  | error error => exact Or.inl ⟨error, rfl, rfl⟩
  | ok later =>
    have hlater : List.Forall₂ Token.SameUpToCase later later :=
      List.forall₂_same.2 fun token _ => .refl token
    exact Or.inr ⟨tokens ++ later, others ++ later, rfl, rfl, List.rel_append hothers hlater⟩

/-! ### Where tokens stand -/

theorem length_text_le (lexeme : Lexeme) (position : Nat) :
    (lexeme.token position).text.length ≤ lexeme.spelling.length := by
  rw [← String.length_toList]
  cases lexeme with
  | quoted quote body =>
    simp only [Lexeme.token, Lexeme.spelling, String.toList_ofList, List.length_append,
      List.length_cons]
    omega
  | integer digits => simp [Lexeme.token, Lexeme.spelling]
  | decimal whole fraction => simp [Lexeme.token, Lexeme.spelling]
  | comma => simp [Lexeme.token, Lexeme.spelling]
  | word letters =>
    rw [String.length_toList]
    exact Nat.le_of_eq (length_text_of_denotes (denotes_iff.2 rfl))

/-- The text of a token ends in front of every later token. -/
theorem Passed.pairwise {rest front : List Char} {position : Nat} {tokens : List Token}
    (h : Passed rest position front tokens) :
    tokens.Pairwise fun token later => token.position + token.text.length ≤ later.position := by
  induction h with
  | nothing => exact .nil
  | blank _ _ ih => exact ih
  | @lexeme position lexeme front tokens wellFormed _ hlater ih =>
    -- later tokens begin behind the lexeme, and its text is not longer than the lexeme
    refine .cons (fun token htoken => ?_) ih
    have hrange := hlater.position_mem token htoken
    have hlength := length_text_le lexeme position
    rw [position_token]
    omega

theorem exists_letters_of_kind {lexeme : Lexeme} {position : Nat}
    (h : (lexeme.token position).kind = .word) :
    ∃ letters, lexeme = .word letters ∧ (lexeme.token position).text = String.ofList letters := by
  cases lexeme with
  | word letters =>
    refine ⟨letters, rfl, ?_⟩
    rw [Lexeme.token] at h ⊢
    split at h
    · exact absurd h (by simp)
    · rfl
  | _ => exact absurd h (by simp [Lexeme.token])

/-- The text of a word stands in the command at the position of its token. -/
theorem getElem?_text_of_word {text : String} {tokens : List Token} {token : Token}
    (h : tokenize text = .ok tokens) (hmem : token ∈ tokens) (hword : token.kind = .word)
    {index : Nat} (hindex : index < token.text.length) :
    token.text.toList[index]? = text.toList[token.position + index]? := by
  obtain ⟨before, later, rfl⟩ := List.append_of_mem hmem
  rcases (passed_of_scan h).split rfl with ⟨first, second, htext, hposition, -, hsecond⟩
  rcases hsecond.exists_lexeme rfl with ⟨lexeme, behind, rfl, htoken, -, -, -⟩
  obtain ⟨letters, rfl, hletters⟩ := exists_letters_of_kind (htoken ▸ hword)
  rw [← htoken] at hletters
  rw [hletters, ← String.length_toList, String.toList_ofList] at hindex
  rw [htext, hposition, hletters, String.toList_ofList, Nat.zero_add,
    List.getElem?_append_right (Nat.le_add_right _ _), Nat.add_sub_cancel_left, Lexeme.spelling,
    List.getElem?_append_left hindex]

/-- A place that belongs to the text of a token. -/
def Token.Spans (token : Token) (place : Nat) : Prop :=
  token.position ≤ place ∧ place < token.position + token.text.length

/-- No place belongs to two tokens. -/
theorem eq_of_spans {text : String} {tokens : List Token} (h : tokenize text = .ok tokens)
    {token other : Token} (htoken : token ∈ tokens) (hother : other ∈ tokens) {place : Nat}
    (hspans : token.Spans place) (hotherSpans : other.Spans place) : token = other := by
  have hpairwise := (passed_of_scan h).pairwise
  obtain ⟨before, later, rfl⟩ := List.append_of_mem htoken
  obtain ⟨-, hcons, hbefore⟩ := List.pairwise_append.1 hpairwise
  rcases List.mem_append.1 hother with hmem | hmem
  · -- the other one is in front and ends before the place
    have hends := hbefore other hmem token List.mem_cons_self
    have hlt := Nat.lt_of_lt_of_le hotherSpans.2 hends
    exact absurd hspans.1 (Nat.not_le.2 hlt)
  · rcases List.mem_cons.1 hmem with rfl | hmem
    · rfl
    · -- the other one is behind and begins after the place
      have hends := (List.pairwise_cons.1 hcons).1 other hmem
      have hlt := Nat.lt_of_lt_of_le hspans.2 hends
      exact absurd hotherSpans.1 (Nat.not_le.2 hlt)

/-- A word that is not touched keeps its text. -/
theorem text_eq_of_untouched {text other : String} {tokens others : List Token}
    (htokens : tokenize text = .ok tokens) (hothers : tokenize other = .ok others)
    {token second : Token} (htoken : token ∈ tokens) (hsecond : second ∈ others)
    (hcase : token.SameUpToCase second) (hword : token.kind = .word)
    (hplaces : ∀ place, token.Spans place → text.toList[place]? = other.toList[place]?) :
    second.text = token.text := by
  have hlength : second.text.length = token.text.length := by
    rw [← String.length_toList, ← length_lowered, hcase.lowered, length_lowered,
      String.length_toList]
  rw [← String.toList_inj]
  apply List.ext_getElem?
  intro index
  by_cases hindex : index < token.text.length
  · have hplace := hplaces (token.position + index) ⟨by omega, by omega⟩
    rw [getElem?_text_of_word htokens htoken hword hindex,
      getElem?_text_of_word hothers hsecond (hcase.kind.trans hword) (by omega), hcase.position,
      hplace]
  · rw [List.getElem?_eq_none (by rw [String.length_toList]; omega),
      List.getElem?_eq_none (by rw [String.length_toList]; omega)]

theorem eq_of_forall₂_sameUpToCase {tokens others : List Token}
    (h : List.Forall₂ Token.SameUpToCase tokens others)
    (hword : ∀ token ∈ tokens, ∀ other ∈ others, token.SameUpToCase other →
      token.kind = .word → other.text = token.text) : others = tokens := by
  induction h with
  | nil => rfl
  | @cons token other tokens others hcase _ ih =>
    have htext : other.text = token.text := by
      by_cases hkind : token.kind = .word
      · exact hword token List.mem_cons_self other List.mem_cons_self hcase hkind
      · exact hcase.text hkind
    have hother : other = token := by
      cases other
      cases token
      cases hcase.kind
      cases hcase.position
      cases htext
      rfl
    rw [hother, ih fun first hfirst second hsecond => hword first
      (List.mem_cons_of_mem token hfirst) second (List.mem_cons_of_mem other hsecond)]

/-- If only letters of keywords are in another case, the tokens are the same. -/
theorem tokenize_eq_of_keywords {text other : String} {tokens : List Token}
    (h : Recased none text.toList other.toList) (htokens : tokenize text = .ok tokens)
    (hchanged : ∀ place, text.toList[place]? ≠ other.toList[place]? →
      ∃ token ∈ tokens, token.kind.isKeyword = true ∧ token.Spans place) :
    tokenize other = tokenize text := by
  rcases tokenize_sameUpToCase h with
    ⟨error, herror, -⟩ | ⟨first, others, hfirst, hothers, hsame⟩
  · rw [htokens] at herror
    exact absurd herror (by simp)
  · obtain rfl : tokens = first := Except.ok.inj (htokens.symm.trans hfirst)
    rw [htokens, hothers]
    refine congrArg _ (eq_of_forall₂_sameUpToCase hsame ?_)
    intro token htoken second hsecond hcase hword
    refine text_eq_of_untouched htokens hothers htoken hsecond hcase hword fun place hspans => ?_
    by_contra hdiffers
    -- a changed place inside this word would belong to a keyword as well
    rcases hchanged place hdiffers with ⟨keyword, hkeyword, hkind, hplace⟩
    rw [eq_of_spans htokens htoken hkeyword hspans hplace] at hword
    rw [hword] at hkind
    exact absurd hkind (by decide)

/-- The case of letters outside strings matters inside plain words only.  In another case a text has
    the same error, or tokens that differ in the letters of plain words.  If no letters but those of
    keywords are changed, nothing changes at all. -/
theorem tokenize_recased {text other : String} (h : Recased none text.toList other.toList) :
    ((∃ error, tokenize text = .error error ∧ tokenize other = .error error) ∨
      ∃ tokens others, tokenize text = .ok tokens ∧ tokenize other = .ok others ∧
        List.Forall₂ Token.SameUpToCase tokens others) ∧
    ∀ tokens, tokenize text = .ok tokens →
      (∀ place, text.toList[place]? ≠ other.toList[place]? →
        ∃ token ∈ tokens, token.kind.isKeyword = true ∧ token.Spans place) →
      tokenize other = tokenize text ∧
        ∀ options, Statement.ofText options other = Statement.ofText options text := by
  refine ⟨tokenize_sameUpToCase h, fun tokens htokens hchanged => ?_⟩
  have hsame := tokenize_eq_of_keywords h htokens hchanged
  refine ⟨hsame, fun options => ?_⟩
  rw [Statement.ofText, Statement.ofText, hsame]

/-- A plain word keeps its capitals, a keyword does not, and a string has to stay as it is. -/
theorem tokenize_recased_put :
    (Recased none "Put 'aB' in Key".toList "pUT 'aB' IN kEY".toList ∧
      ∃ tokens others, tokenize "Put 'aB' in Key" = .ok tokens ∧
        tokenize "pUT 'aB' IN kEY" = .ok others ∧
        List.Forall₂ Token.SameUpToCase tokens others) ∧
    (Recased none "Put 'aB' in Key".toList "pUT 'aB' IN Key".toList ∧
      tokenize "pUT 'aB' IN Key" = tokenize "Put 'aB' in Key" ∧
      ∀ options, Statement.ofText options "pUT 'aB' IN Key" =
        Statement.ofText options "Put 'aB' in Key") := by
  have hword : Recased none "Put 'aB' in Key".toList "pUT 'aB' IN kEY".toList := by decide +kernel
  have hkeywords : Recased none "Put 'aB' in Key".toList "pUT 'aB' IN Key".toList := by
    decide +kernel
  have htokens : tokenize "Put 'aB' in Key" = .ok [⟨.keyword .put, "put", 0⟩, ⟨.string, "aB", 4⟩,
      ⟨.keyword .inWord, "in", 9⟩, ⟨.word, "Key", 12⟩] := by decide +kernel
  have hspans : ∀ place < 15,
      "Put 'aB' in Key".toList[place]? ≠ "pUT 'aB' IN Key".toList[place]? →
        place < 3 ∨ 9 ≤ place ∧ place < 11 := by decide +kernel
  refine ⟨⟨hword, ?_⟩, hkeywords, (tokenize_recased hkeywords).2 _ htokens fun place hplace => ?_⟩
  · rcases (tokenize_recased hword).1 with ⟨error, herror, -⟩ | hsame
    · rw [htokens] at herror
      exact absurd herror (by simp)
    · exact hsame
  · by_cases hlength : place < 15
    · rcases hspans place hlength hplace with hput | hin
      · exact ⟨⟨.keyword .put, "put", 0⟩, by simp, rfl, Nat.zero_le place, hput⟩
      · exact ⟨⟨.keyword .inWord, "in", 9⟩, by simp, rfl, hin⟩
    · refine absurd ?_ hplace
      rw [List.getElem?_eq_none (Nat.not_lt.1 hlength),
        List.getElem?_eq_none (Nat.not_lt.1 hlength)]

end StoreCommand
