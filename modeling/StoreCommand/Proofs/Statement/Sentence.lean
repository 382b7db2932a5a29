import StoreCommand.Statement.Grammar

/-!
# Sentences of a reading

A reading that is done has looked at some tokens and at no others.  These tokens are a *sentence* of
the reading: the list leads down the tree to a result and ends there.  A run succeeds exactly if its
tokens begin with a sentence (`runAfter_eq_ok_iff`), and the sentences of a reading that goes on
with another one are the sentences of the one followed by those of the other (`accepts_bind`).
-/

namespace StoreCommand

namespace Reading

variable {α β : Type}

/-! ### Sentences -/

/-- `Accepts reading sentence result`: the tokens of `sentence` lead the reading to `result`, and it
    looks at all of them. -/
inductive Accepts : Reading α → List Token → α → Prop where
  | done (result : α) : Accepts (.done result) [] result
  | next {missing : ParseError.Cause} {step : Token → Reading α} {token : Token}
      {rest : List Token} {result : α} (later : Accepts (step token) rest result) :
      Accepts (.next missing step) (token :: rest) result

@[simp] theorem accepts_done {sentence : List Token} {expected result : α} :
    Accepts (done expected) sentence result ↔ sentence = [] ∧ result = expected := by
  constructor
  · intro h
    cases h with
    | done => exact ⟨rfl, rfl⟩
  · rintro ⟨rfl, rfl⟩
    exact .done result

@[simp] theorem accepts_pure {sentence : List Token} {expected result : α} :
    Accepts (pure expected) sentence result ↔ sentence = [] ∧ result = expected :=
  accepts_done

@[simp] theorem not_accepts_refused {cause : ParseError.Cause} {sentence : List Token}
    {result : α} : ¬ Accepts (refused cause) sentence result := by
  intro h
  cases h

@[simp] theorem accepts_next {missing : ParseError.Cause} {step : Token → Reading α}
    {sentence : List Token} {result : α} :
    Accepts (next missing step) sentence result ↔
      ∃ token rest, sentence = token :: rest ∧ Accepts (step token) rest result := by
  constructor
  · intro h
    cases h with
    | next later => exact ⟨_, _, rfl, later⟩
  · rintro ⟨token, rest, rfl, later⟩
    exact .next later

/-- The sentences of two readings in a row. -/
theorem accepts_bind {reading : Reading α} {continuation : α → Reading β} {sentence : List Token}
    {result : β} :
    Accepts (reading >>= continuation) sentence result ↔
      ∃ first second middle, sentence = first ++ second ∧ Accepts reading first middle ∧
        Accepts (continuation middle) second result := by
  induction reading generalizing sentence with
  | done middle =>
    constructor
    · intro h
      exact ⟨[], sentence, middle, rfl, .done middle, h⟩
    · rintro ⟨first, second, middle, rfl, hfirst, hsecond⟩
      obtain ⟨rfl, rfl⟩ := accepts_done.1 hfirst
      exact hsecond
  | refused cause =>
    constructor
    · intro h
      exact absurd h not_accepts_refused
    · rintro ⟨first, second, middle, rfl, hfirst, -⟩
      exact absurd hfirst not_accepts_refused
  | next missing step ih =>
    -- the token belongs to the first part, whatever follows
    constructor
    · intro h
      obtain ⟨token, rest, rfl, later⟩ := accepts_next.1 h
      obtain ⟨first, second, middle, rfl, hfirst, hsecond⟩ := (ih token).1 later
      exact ⟨token :: first, second, middle, rfl, .next hfirst, hsecond⟩
    · rintro ⟨first, second, middle, rfl, hfirst, hsecond⟩
      obtain ⟨token, rest, rfl, later⟩ := accepts_next.1 hfirst
      exact .next ((ih token).2 ⟨rest, second, middle, rfl, later, hsecond⟩)

/-- A run succeeds exactly if the tokens begin with a sentence; what comes behind is not looked
    at. -/
theorem runAfter_eq_ok_iff {reading : Reading α} {last : Option Nat} {tokens : List Token}
    {result : α} :
    reading.runAfter last tokens = .ok result ↔
      ∃ sentence rest, tokens = sentence ++ rest ∧ Accepts reading sentence result := by
  induction reading generalizing last tokens with
  | done expected =>
    rw [runAfter_done]
    constructor
    · -- a result needs no token
      intro h
      obtain rfl := Except.ok.inj h
      exact ⟨[], tokens, rfl, .done expected⟩
    · rintro ⟨sentence, rest, -, h⟩
      rw [(accepts_done.1 h).2]
  | refused cause => simp
  | next missing step ih =>
    cases tokens with
    | nil => simp
    | cons token tokens =>
      rw [runAfter_next_cons, ih]
      constructor
      · rintro ⟨sentence, rest, rfl, later⟩
        exact ⟨token :: sentence, rest, rfl, .next later⟩
      · rintro ⟨sentence, rest, heq, h⟩
        obtain ⟨first, later, rfl, hlater⟩ := accepts_next.1 h
        obtain ⟨rfl, rfl⟩ := List.cons.inj heq
        exact ⟨later, rest, rfl, hlater⟩

/-! ### Sentences of the parts -/

@[simp] theorem accepts_token_bind {slot : ParseError.Slot} {continuation : Token → Reading β}
    {sentence : List Token} {result : β} :
    Accepts (token slot >>= continuation) sentence result ↔
      ∃ token rest, sentence = token :: rest ∧ Accepts (continuation token) rest result :=
  accepts_next

@[simp] theorem accepts_text_bind {slot : ParseError.Slot} {continuation : String → Reading β}
    {sentence : List Token} {result : β} :
    Accepts (text slot >>= continuation) sentence result ↔
      ∃ token rest, sentence = token :: rest ∧ Accepts (continuation token.text) rest result :=
  accepts_next

@[simp] theorem accepts_word {expected : String} {sentence : List Token} {result : Unit} :
    Accepts (word expected) sentence result ↔
      ∃ token, sentence = [token] ∧ token.text = expected := by
  unfold word
  rw [accepts_text_bind]
  constructor
  · rintro ⟨token, rest, rfl, h⟩
    split at h
    · rename_i htext
      obtain ⟨rfl, -⟩ := accepts_done.1 h
      exact ⟨token, rfl, htext⟩
    · exact absurd h not_accepts_refused
  · rintro ⟨token, rfl, htext⟩
    refine ⟨token, [], rfl, ?_⟩
    rw [if_pos htext]
    exact .done ()

@[simp] theorem accepts_word_bind {expected : String} {continuation : Unit → Reading β}
    {sentence : List Token} {result : β} :
    Accepts (word expected >>= continuation) sentence result ↔
      ∃ token rest, sentence = token :: rest ∧ token.text = expected ∧
        Accepts (continuation ()) rest result := by
  rw [accepts_bind]
  constructor
  · rintro ⟨first, second, middle, rfl, hfirst, hsecond⟩
    obtain ⟨token, rfl, htext⟩ := accepts_word.1 hfirst
    exact ⟨token, second, rfl, htext, hsecond⟩
  · rintro ⟨token, rest, rfl, htext, hrest⟩
    exact ⟨[token], rest, (), rfl, accepts_word.2 ⟨token, rfl, htext⟩, hrest⟩

@[simp] theorem accepts_connective_bind {strict : Bool} {expected : String}
    {continuation : Unit → Reading β} {sentence : List Token} {result : β} :
    Accepts (connective strict expected >>= continuation) sentence result ↔
      ∃ token rest, sentence = token :: rest ∧ (strict = true → token.text = expected) ∧
        Accepts (continuation ()) rest result := by
  cases strict with
  | false =>
    have hlenient : (connective false expected >>= continuation) =
        (text (.word expected) >>= fun _ => continuation ()) := rfl
    rw [hlenient, accepts_text_bind]
    simp
  | true =>
    have hstrict : connective true expected = word expected := rfl
    rw [hstrict, accepts_word_bind]
    simp

/-! ### Runs of the parts -/

theorem runAfter_text_bind {slot : ParseError.Slot} {continuation : String → Reading β}
    (last : Option Nat) (token : Token) (rest : List Token) :
    (text slot >>= continuation).runAfter last (token :: rest) =
      (continuation token.text).runAfter (some token.position) rest := rfl

theorem runAfter_word_bind {expected : String} {continuation : Unit → Reading β}
    (last : Option Nat) (token : Token) (rest : List Token) :
    (word expected >>= continuation).runAfter last (token :: rest) =
      if token.text = expected then (continuation ()).runAfter (some token.position) rest
      else .error ⟨.wrongWord expected token.text, some token.position⟩ := by
  have hstep : (word expected >>= continuation).runAfter last (token :: rest) =
      ((if token.text = expected then done () else refused (.wrongWord expected token.text)) >>=
        continuation).runAfter (some token.position) rest := rfl
  rw [hstep]
  by_cases htext : token.text = expected
  · rw [if_pos htext, if_pos htext]
    rfl
  · rw [if_neg htext, if_neg htext]
    exact runAfter_refused _ _ rest

/-- The expected connecting word is passed whether it is checked or not. -/
theorem runAfter_connective_bind {expected : String} {continuation : Unit → Reading β}
    (strict : Bool) (last : Option Nat) {token : Token} (h : token.text = expected)
    (rest : List Token) :
    (connective strict expected >>= continuation).runAfter last (token :: rest) =
      (continuation ()).runAfter (some token.position) rest := by
  cases strict with
  | false => rfl
  | true =>
    have hstrict : connective true expected = word expected := rfl
    rw [hstrict, runAfter_word_bind, if_pos h]

theorem runAfter_permissions_bind {vocabulary : Vocabulary}
    {continuation : List String → Reading β} (last : Option Nat) (token : Token)
    (rest : List Token) :
    (permissions vocabulary >>= continuation).runAfter last (token :: rest) =
      match PermissionList.read vocabulary token.text with
      | .ok names => (continuation names).runAfter (some token.position) rest
      | .error unknown => .error ⟨.unknownPermission unknown, some token.position⟩ := by
  have hstep : (permissions vocabulary >>= continuation).runAfter last (token :: rest) =
      ((match PermissionList.read vocabulary token.text with
        | .ok names => done names
        | .error unknown => refused (.unknownPermission unknown)) >>=
          continuation).runAfter (some token.position) rest := rfl
  rw [hstep]
  cases PermissionList.read vocabulary token.text with
  | ok names => rfl
  | error unknown => exact runAfter_refused _ _ rest

theorem runAfter_strictFlag_bind {continuation : Bool → Reading β} (last : Option Nat)
    (token : Token) (rest : List Token) :
    (activeFlag true >>= continuation).runAfter last (token :: rest) =
      if token.text = "not" then
        (word "active" >>= fun _ => continuation false).runAfter (some token.position) rest
      else if token.text = "active" then (continuation true).runAfter (some token.position) rest
      else .error ⟨.wrongWord "active" token.text, some token.position⟩ := by
  have hstep : (activeFlag true >>= continuation).runAfter last (token :: rest) =
      ((if token.text = "not" then word "active" >>= fun _ => done false
        else if token.text = "active" then done true
        else refused (.wrongWord "active" token.text)) >>=
          continuation).runAfter (some token.position) rest := rfl
  rw [hstep]
  by_cases hnot : token.text = "not"
  · rw [if_pos hnot, if_pos hnot, bind_assoc]
    rfl
  · rw [if_neg hnot, if_neg hnot]
    by_cases hactive : token.text = "active"
    · rw [if_pos hactive, if_pos hactive]
      rfl
    · rw [if_neg hactive, if_neg hactive]
      exact runAfter_refused _ _ rest

end Reading

end StoreCommand
