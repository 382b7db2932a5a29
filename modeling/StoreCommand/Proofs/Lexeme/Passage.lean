import StoreCommand.Proofs.Lexeme.Scanned

/-!
# Passing over a part of a text

Scanning a text comes to the start of each token with some tokens behind it and the rest of the text
in front of it.  `Passed rest position front tokens` says so of a text `front ++ rest`: scanned from
`position`, the part `front` gives `tokens`, and scanning goes on at the start of `rest`.

The relation looks at `rest` only to see where lexemes end, and that makes three things easy.  A
text is passed up to its end or up to the place where no lexeme begins (`exists_passed`).  What is
passed stays passed when the rest is cut short (`Passed.cut`).  And it stays passed when the rest
gets longer, unless the last lexeme ends where the rest begins and is joined by what is new
(`Passed.extend`).
-/

namespace StoreCommand

/-! ### Positions -/

def Token.shift (offset : Nat) (token : Token) : Token :=
  { token with position := offset + token.position }

/-- What scanning returns for a text that stands `offset` characters further on. -/
def shifted (offset : Nat) : Except ScanError (List Token) → Except ScanError (List Token)
  | .ok tokens => .ok (tokens.map (Token.shift offset))
  | .error error => .error ⟨error.cause, offset + error.position⟩

@[simp] theorem position_token (position : Nat) (lexeme : Lexeme) :
    (lexeme.token position).position = position := by
  cases lexeme with
  | word letters =>
    rw [Lexeme.token]
    split
    · rfl
    · rfl
  | _ => rfl

theorem shift_token (offset position : Nat) (lexeme : Lexeme) :
    (lexeme.token position).shift offset = lexeme.token (offset + position) := by
  cases lexeme with
  | word letters =>
    rw [Lexeme.token, Lexeme.token]
    split
    · rfl
    · rfl
  | _ => rfl

theorem shifted_map_cons (offset position : Nat) (lexeme : Lexeme)
    (result : Except ScanError (List Token)) :
    shifted offset (result.map (lexeme.token position :: ·)) =
      (shifted offset result).map (lexeme.token (offset + position) :: ·) := by
  cases result with
  | ok tokens => simp [shifted, Except.map, shift_token]
  | error error => rfl

/-- Where a text stands shows in the positions only. -/
theorem scan_shift (offset position : Nat) (text : List Char) :
    scan (offset + position) text = shifted offset (scan position text) := by
  induction position, text using scan.induct with
  | case1 position =>
    rw [scan_nil, scan_nil]
    rfl
  | case2 position c rest hblank ih =>
    rw [scan_of_isBlank hblank, scan_of_isBlank hblank, Nat.add_assoc, ih]
  | case3 position c rest hblank hfirst =>
    have hkept : isBlank c = false := by simpa using hblank
    rw [scan_of_first?_eq_none hkept hfirst, scan_of_first?_eq_none hkept hfirst]
    rfl
  | case4 position c rest hblank lexeme after hfirst ih =>
    have hlongest := Lexeme.first?_eq_some_iff.1 hfirst
    rw [scan_of_isLongest hlongest, scan_of_isLongest hlongest, Nat.add_assoc, ih,
      shifted_map_cons]

/-! ### Passing -/

/-- Scanning `front ++ rest` from `position` passes `front` with the tokens `tokens` and comes to
    the start of `rest`. -/
inductive Passed (rest : List Char) : Nat → List Char → List Token → Prop where
  | nothing (position : Nat) : Passed rest position [] []
  | blank {position : Nat} {c : Char} {front : List Char} {tokens : List Token}
      (skipped : isBlank c = true) (later : Passed rest (position + 1) front tokens) :
      Passed rest position (c :: front) tokens
  | lexeme {position : Nat} {lexeme : Lexeme} {front : List Char} {tokens : List Token}
      (wellFormed : lexeme.WellFormed) (ends : lexeme.EndsBefore (front ++ rest))
      (later : Passed rest (position + lexeme.spelling.length) front tokens) :
      Passed rest position (lexeme.spelling ++ front) (lexeme.token position :: tokens)

theorem scan_of_passed {rest front : List Char} {position : Nat} {tokens : List Token}
    (h : Passed rest position front tokens) :
    scan position (front ++ rest) = (scan (position + front.length) rest).map (tokens ++ ·) := by
  induction h with
  | nothing position =>
    cases hscan : scan position rest with
    | ok tokens => simp [Except.map, hscan]
    | error error => simp [Except.map, hscan]
  | @blank position c front tokens skipped _ ih =>
    rw [List.cons_append, scan_of_isBlank skipped, ih, List.length_cons, Nat.add_assoc,
      Nat.add_comm 1]
  | @lexeme position lexeme front tokens wellFormed ends _ ih =>
    have hlongest := (Lexeme.isLongest_iff_endsBefore wellFormed).2 ends
    rw [List.append_assoc, scan_of_isLongest hlongest, ih, List.length_append, Nat.add_assoc]
    cases scan (position + (lexeme.spelling.length + front.length)) rest with
    | ok later => rfl
    | error error => rfl

/-- A place at which scanning stops: the text is over, or no lexeme begins there. -/
inductive Stuck : List Char → Prop where
  | finished : Stuck []
  | failed {c : Char} {rest : List Char} (kept : isBlank c = false)
      (stuck : Lexeme.first? (c :: rest) = none) : Stuck (c :: rest)

/-- Scanning passes a text up to its end, or up to a place where no lexeme begins. -/
theorem exists_passed (position : Nat) (text : List Char) :
    ∃ front rest tokens, text = front ++ rest ∧ Passed rest position front tokens ∧ Stuck rest := by
  induction position, text using scan.induct with
  | case1 position => exact ⟨[], [], [], rfl, .nothing position, .finished⟩
  | case2 position c rest hblank ih =>
    rcases ih with ⟨front, behind, tokens, rfl, hpassed, hstuck⟩
    exact ⟨c :: front, behind, tokens, rfl, .blank hblank hpassed, hstuck⟩
  | case3 position c rest hblank hfirst =>
    exact ⟨[], c :: rest, [], rfl, .nothing position, .failed (by simpa using hblank) hfirst⟩
  | case4 position c rest hblank lexeme after hfirst ih =>
    have hlongest := Lexeme.first?_eq_some_iff.1 hfirst
    have htext := hlongest.spelling_append
    rcases ih with ⟨front, behind, tokens, rfl, hpassed, hstuck⟩
    have hends := (Lexeme.isLongest_iff_endsBefore hlongest.wellFormed).1 (htext ▸ hlongest)
    refine ⟨lexeme.spelling ++ front, behind, lexeme.token position :: tokens, ?_,
      .lexeme hlongest.wellFormed hends hpassed, hstuck⟩
    rw [List.append_assoc, htext]

/-- A text with tokens is passed to its end. -/
theorem passed_of_scan {position : Nat} {text : List Char} {tokens : List Token}
    (h : scan position text = .ok tokens) : Passed [] position text tokens := by
  rcases exists_passed position text with ⟨front, rest, others, rfl, hpassed, hstuck⟩
  rw [scan_of_passed hpassed] at h
  cases hstuck with
  | finished =>
    rw [scan_nil, Except.map, List.append_nil] at h
    rw [List.append_nil, ← Except.ok.inj h]
    exact hpassed
  | failed kept stuck =>
    rw [scan_of_first?_eq_none kept stuck] at h
    exact absurd h (by simp [Except.map])

/-- A text without tokens is passed up to the character at fault. -/
theorem exists_passed_of_error {position place : Nat} {text : List Char}
    {cause : ScanError.Cause} (h : scan position text = .error ⟨cause, place⟩) :
    ∃ front c rest tokens, text = front ++ c :: rest ∧ place = position + front.length ∧
      Passed (c :: rest) position front tokens ∧ isBlank c = false ∧
      Lexeme.first? (c :: rest) = none ∧ cause = .of c := by
  rcases exists_passed position text with ⟨front, rest, tokens, rfl, hpassed, hstuck⟩
  rw [scan_of_passed hpassed] at h
  cases hstuck with
  | finished =>
    rw [scan_nil] at h
    exact absurd h (by simp [Except.map])
  | @failed c rest kept stuck =>
    rw [scan_of_first?_eq_none kept stuck] at h
    obtain ⟨rfl, rfl⟩ := ScanError.mk.inj (Except.error.inj h)
    exact ⟨front, c, rest, tokens, rfl, rfl, hpassed, kept, stuck, rfl⟩

namespace Passed

/-! ### Tokens of a passed part -/

theorem position_mem {rest front : List Char} {position : Nat} {tokens : List Token}
    (h : Passed rest position front tokens) :
    ∀ token ∈ tokens, position ≤ token.position ∧ token.position < position + front.length := by
  induction h with
  | nothing => simp
  | blank _ _ ih =>
    intro token hmem
    have hrange := ih token hmem
    rw [List.length_cons]
    omega
  | @lexeme position lexeme front tokens wellFormed _ _ ih =>
    have hlength := List.length_pos_iff.2 (Lexeme.spelling_ne_nil wellFormed)
    intro token hmem
    rw [List.length_append]
    rcases List.mem_cons.1 hmem with rfl | hmem
    · rw [position_token]
      omega
    · have hrange := ih token hmem
      omega

theorem tokens_eq_nil {rest front : List Char} {position : Nat} {tokens : List Token}
    (h : Passed rest position front tokens) (hfront : front = []) : tokens = [] := by
  cases h with
  | nothing => rfl
  | blank => exact absurd hfront (by simp)
  | lexeme wellFormed =>
    exact absurd (List.append_eq_nil_iff.1 hfront).1 (Lexeme.spelling_ne_nil wellFormed)

/-- A passed part can be cut in front of any of its tokens. -/
theorem split {rest front : List Char} {position : Nat} {tokens before later : List Token}
    {token : Token} (h : Passed rest position front tokens)
    (htokens : tokens = before ++ token :: later) :
    ∃ first second, front = first ++ second ∧ token.position = position + first.length ∧
      Passed (second ++ rest) position first before ∧
      Passed rest token.position second (token :: later) := by
  induction h generalizing before with
  | nothing => exact absurd htokens (by simp)
  | @blank position c front tokens skipped _ ih =>
    -- a blank goes to the first part, also right in front of the token
    rcases ih htokens with ⟨first, second, rfl, hposition, hfirst, hsecond⟩
    refine ⟨c :: first, second, rfl, ?_, .blank skipped hfirst, hsecond⟩
    rw [hposition, List.length_cons]
    omega
  | @lexeme position lexeme front tokens wellFormed ends hlater ih =>
    cases before with
    | nil =>
      -- this is the token, and the cut is in front of its lexeme
      obtain ⟨rfl, rfl⟩ := List.cons.inj htokens
      refine ⟨[], lexeme.spelling ++ front, rfl, by simp, .nothing position, ?_⟩
      rw [position_token]
      exact .lexeme wellFormed ends hlater
    | cons other before =>
      obtain ⟨rfl, hothers⟩ := List.cons.inj htokens
      rcases ih hothers with ⟨first, second, rfl, hposition, hfirst, hsecond⟩
      refine ⟨lexeme.spelling ++ first, second, by simp, ?_, ?_, hsecond⟩
      · rw [hposition, List.length_append]
        omega
      · rw [List.append_assoc] at ends
        exact .lexeme wellFormed ends hfirst

/-- A passed part whose first token is at its start begins with the lexeme of this token. -/
theorem exists_lexeme {rest front : List Char} {position : Nat} {later : List Token}
    {token : Token} (h : Passed rest position front (token :: later))
    (hposition : token.position = position) :
    ∃ (lexeme : Lexeme) (behind : List Char), front = lexeme.spelling ++ behind ∧
      token = lexeme.token position ∧ lexeme.WellFormed ∧
      lexeme.EndsBefore (behind ++ rest) ∧
      Passed rest (position + lexeme.spelling.length) behind later := by
  cases h with
  | blank _ later =>
    have hrange := later.position_mem token List.mem_cons_self
    omega
  | @lexeme _ lexeme behind _ wellFormed ends later =>
    exact ⟨lexeme, behind, rfl, rfl, wellFormed, ends, later⟩

end Passed

/-! ### Shorter and longer rests -/

namespace Lexeme

theorem EndsBefore.cut {lexeme : Lexeme} {rest tail : List Char}
    (h : lexeme.EndsBefore (rest ++ tail)) : lexeme.EndsBefore rest := by
  have hhead : ∀ c ∈ rest.head?, c ∈ (rest ++ tail).head? := by
    intro c hc
    rw [List.head?_append, Option.mem_def.1 hc]
    rfl
  cases lexeme with
  | quoted => trivial
  | integer =>
    exact ⟨fun c hc => h.1 c (hhead c hc),
      fun c hc => h.2 c (hc.trans (List.prefix_append rest tail))⟩
  | decimal => exact fun c hc => h c (hhead c hc)
  | word => exact fun c hc => h c (hhead c hc)
  | comma => trivial

/-- One character behind a lexeme settles that it ends there, if it is not a dot that may still get
    a digit. -/
theorem EndsBefore.extend {lexeme : Lexeme} {rest more : List Char} (h : lexeme.EndsBefore rest)
    (hne : rest ≠ []) (hdot : rest = ['.'] → ∀ digits, lexeme = .integer digits →
      ∀ c ∈ more.head?, c.isDigit = false) : lexeme.EndsBefore (rest ++ more) := by
  cases rest with
  | nil => exact absurd rfl hne
  | cons first tail =>
    cases lexeme with
    | quoted => trivial
    | integer digits =>
      refine ⟨h.1, ?_⟩
      rintro c ⟨behind, hprefix⟩
      cases tail with
      | nil =>
        -- the rest is a dot alone, and what is added decides
        obtain ⟨rfl, rfl⟩ := List.cons.inj hprefix
        exact hdot rfl digits rfl c rfl
      | cons second tail =>
        obtain ⟨rfl, hbehind⟩ := List.cons.inj hprefix
        obtain ⟨rfl, -⟩ := List.cons.inj hbehind
        exact h.2 c ⟨tail, rfl⟩
    | decimal => exact h
    | word => exact h
    | comma => trivial

/-- No lexeme begins with a dot. -/
theorem dot_notMem_head {lexeme : Lexeme} (h : lexeme.WellFormed) :
    '.' ∉ lexeme.spelling.head? := by
  intro hdot
  cases hspelling : lexeme.spelling with
  | nil => exact spelling_ne_nil h hspelling
  | cons c tail =>
    obtain rfl : c = '.' := by simpa [hspelling] using hdot
    have hfirst := first?_spelling_append h separated_nil
    rw [hspelling, List.cons_append, first?, if_neg (by decide), if_neg (by decide),
      if_neg (by decide)] at hfirst
    exact absurd hfirst (by simp)

end Lexeme

namespace Passed

theorem cut {rest tail front : List Char} {position : Nat} {tokens : List Token}
    (h : Passed (rest ++ tail) position front tokens) : Passed rest position front tokens := by
  induction h with
  | nothing position => exact .nothing position
  | blank skipped _ ih => exact .blank skipped ih
  | lexeme wellFormed ends _ ih =>
    rw [← List.append_assoc] at ends
    exact .lexeme wellFormed ends.cut ih

theorem dot_notMem_head {rest front : List Char} {position : Nat} {tokens : List Token}
    (h : Passed rest position front tokens) : '.' ∉ front.head? := by
  cases h with
  | nothing => simp
  | blank skipped =>
    intro hdot
    rw [Option.some.inj hdot] at skipped
    exact absurd skipped (by decide)
  | @lexeme _ lexeme front _ wellFormed =>
    have hspelling := Lexeme.dot_notMem_head wellFormed
    cases hchars : lexeme.spelling with
    | nil => exact absurd hchars (Lexeme.spelling_ne_nil wellFormed)
    | cons c tail =>
      rw [hchars] at hspelling
      exact hspelling

/-- A passed part stays passed in front of a longer rest, if this is so for a lexeme at its very
    end. -/
theorem extend {rest more front : List Char} {position : Nat} {tokens : List Token}
    (h : Passed rest position front tokens)
    (hseam : ∀ (start : List Char) (lexeme : Lexeme) (earlier : List Token),
      front = start ++ lexeme.spelling →
      tokens = earlier ++ [lexeme.token (position + start.length)] → lexeme.WellFormed →
      lexeme.EndsBefore rest → lexeme.EndsBefore (rest ++ more)) :
    Passed (rest ++ more) position front tokens := by
  induction h with
  | nothing position => exact .nothing position
  | @blank position c front tokens skipped _ ih =>
    apply Passed.blank skipped
    apply ih
    rintro start lexeme earlier rfl rfl
    apply hseam (c :: start) lexeme earlier rfl
    rw [List.length_cons, Nat.add_assoc, Nat.add_comm 1]
  | @lexeme position lexeme front tokens wellFormed ends later ih =>
    refine .lexeme wellFormed ?_ (ih ?_)
    · cases front with
      | nil =>
        obtain rfl := later.tokens_eq_nil rfl
        exact hseam [] lexeme [] (by simp) rfl wellFormed ends
      | cons c tail =>
        rw [← List.append_assoc]
        apply ends.extend (by simp)
        intro hdot
        exact absurd (by simp [List.cons.inj hdot]) later.dot_notMem_head
    · rintro start last earlier rfl rfl
      apply hseam (lexeme.spelling ++ start) last (lexeme.token position :: earlier) (by simp)
      rw [List.length_append, Nat.add_assoc, List.cons_append]

end Passed

/-! ### Cutting a text -/

/-- The text in front of an offset. -/
def textBefore (place : Nat) (text : String) : String :=
  String.ofList (text.toList.take place)

/-- The text from an offset on. -/
def textFrom (place : Nat) (text : String) : String :=
  String.ofList (text.toList.drop place)

theorem textBefore_of_append {text : String} {front rest : List Char}
    (h : text.toList = front ++ rest) : textBefore front.length text = String.ofList front := by
  rw [textBefore, h, List.take_left]

theorem textFrom_of_append {text : String} {front rest : List Char}
    (h : text.toList = front ++ rest) : textFrom front.length text = String.ofList rest := by
  rw [textFrom, h, List.drop_left]

/-- A passed part has the same tokens if nothing follows it. -/
theorem tokenize_of_passed {rest front : List Char} {tokens : List Token}
    (h : Passed rest 0 front tokens) : tokenize (String.ofList front) = .ok tokens := by
  have hwhole : Passed ([] ++ rest) 0 front tokens := h
  have hscan := scan_of_passed hwhole.cut
  rw [List.append_nil, scan_nil, Except.map, List.append_nil] at hscan
  rw [tokenize, String.toList_ofList, hscan]

end StoreCommand
