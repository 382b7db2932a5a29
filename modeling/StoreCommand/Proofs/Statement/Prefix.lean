import StoreCommand.Proofs.Statement.Form

/-!
# Prefixes of sentences

Reading is decided as early as it can be.  While a run only lacks tokens, the tokens so far are the
beginning of some sentence; once it has a result or refuses a token, nothing that comes behind can
change that.  So the token that an error blames is the first one with which the tokens stop being
the beginning of any sentence.

The first half is a property of readings and not of runs: `Viable` says that a reading can still be
completed wherever it asks for a token.  Every part of the grammar is viable, and `Open` parts can
moreover be completed from their start, which is what a part in front of them needs.
-/

namespace StoreCommand

namespace Reading

variable {α β : Type}

/-! ### Completions -/

/-- Some tokens lead the reading to a result. -/
def Completable (reading : Reading α) : Prop :=
  ∃ sentence result, Accepts reading sentence result

theorem completable_done (result : α) : Completable (done result) :=
  ⟨[], result, .done result⟩

theorem completable_next {missing : ParseError.Cause} {step : Token → Reading α} (token : Token)
    (h : Completable (step token)) : Completable (next missing step) := by
  rcases h with ⟨sentence, result, haccepts⟩
  exact ⟨token :: sentence, result, .next haccepts⟩

theorem completable_bind {reading : Reading α} {continuation : α → Reading β}
    (h : Completable reading) (hlater : ∀ result, Completable (continuation result)) :
    Completable (reading >>= continuation) := by
  rcases h with ⟨first, middle, hfirst⟩
  rcases hlater middle with ⟨second, result, hsecond⟩
  exact ⟨first ++ second, result, accepts_bind.2 ⟨first, second, middle, rfl, hfirst, hsecond⟩⟩

/-- The reading names what is missing wherever it asks for a token, and there some tokens complete
    it. -/
inductive Viable : Reading α → Prop where
  | done (result : α) : Viable (.done result)
  | refused (cause : ParseError.Cause) : Viable (.refused cause)
  | next {slot : ParseError.Slot} {step : Token → Reading α}
      (completable : ∃ token, Completable (step token)) (later : ∀ token, Viable (step token)) :
      Viable (.next (.missing slot) step)

/-- A viable reading that does not refuse from the start. -/
structure Open (reading : Reading α) : Prop where
  completable : Completable reading
  viable : Viable reading

theorem open_done (result : α) : Open (done result) :=
  ⟨completable_done result, .done result⟩

theorem open_next {slot : ParseError.Slot} {step : Token → Reading α} (token : Token)
    (h : Completable (step token)) (hlater : ∀ token, Viable (step token)) :
    Open (next (.missing slot) step) :=
  ⟨completable_next token h, .next ⟨token, h⟩ hlater⟩

theorem viable_bind {reading : Reading α} {continuation : α → Reading β} (h : Viable reading)
    (hlater : ∀ result, Open (continuation result)) : Viable (reading >>= continuation) := by
  induction h with
  | done result => exact (hlater result).viable
  | refused cause => exact .refused cause
  | @next slot step completable later ih =>
    rcases completable with ⟨token, hcompletable⟩
    exact .next ⟨token, completable_bind hcompletable fun result => (hlater result).completable⟩ ih

theorem open_bind {reading : Reading α} {continuation : α → Reading β} (h : Open reading)
    (hlater : ∀ result, Open (continuation result)) : Open (reading >>= continuation) :=
  ⟨completable_bind h.completable fun result => (hlater result).completable,
    viable_bind h.viable hlater⟩

/-! ### The parts of the grammar -/

/-- The token with this text; its kind and position do not matter. -/
def tokenNamed (text : String) : Token := ⟨.word, text, 0⟩

/-- A place that takes any text is open if one text can be completed and no text leads astray. -/
theorem open_text_bind {slot : ParseError.Slot} {continuation : String → Reading β}
    (found : String) (h : Completable (continuation found))
    (hlater : ∀ found, Viable (continuation found)) : Open (text slot >>= continuation) :=
  open_next (tokenNamed found) h fun token => hlater token.text

theorem open_text (slot : ParseError.Slot) : Open (text slot) :=
  open_next (tokenNamed "") (completable_done _) fun token => .done token.text

theorem open_word (expected : String) : Open (word expected) := by
  refine open_text_bind expected ?_ fun found => ?_
  · rw [if_pos rfl]
    exact completable_done ()
  · split
    · exact .done ()
    · exact .refused _

theorem open_connective (strict : Bool) (expected : String) :
    Open (connective strict expected) := by
  cases strict with
  | true => exact open_word expected
  | false => exact open_bind (open_text _) fun _ => open_done ()

theorem viable_keyNamed (found : String) : Viable (keyNamed found) := by
  unfold keyNamed
  split
  · exact .done found
  · exact .refused _

theorem open_key : Open key := by
  refine open_text_bind "k" ?_ viable_keyNamed
  exact completable_done "k"

/-- The empty list is granted whatever the vocabulary. -/
theorem open_permissions (vocabulary : Vocabulary) : Open (permissions vocabulary) := by
  refine open_text_bind "" (completable_done []) fun found => ?_
  split
  · exact .done _
  · exact .refused _

theorem open_truthValue : Open truthValue := by
  refine open_text_bind "true" (completable_done true) fun found => ?_
  split
  · exact .done true
  · split
    · exact .done false
    · exact .refused _

theorem open_activeFlag (strict : Bool) : Open (activeFlag strict) := by
  cases strict with
  | false => exact open_text_bind "active" (completable_done _) fun found => .done _
  | true =>
    -- the word `not` has to be followed by `active`, and can be
    refine open_text_bind "active" (completable_done true) fun found => ?_
    split
    · exact viable_bind (open_word "active").viable fun _ => open_done false
    · split
      · exact .done true
      · exact .refused _

/-! ### Statements -/

theorem viable_change (vocabulary : Vocabulary) (field : String) :
    Viable (change vocabulary field) := by
  have hnew : ∀ (slot : ParseError.Slot) (ofText : String → UserChange),
      Viable (word "to" >>= fun _ => text slot >>= fun new => done (ofText new)) := by
    intro slot ofText
    refine viable_bind (open_word "to").viable fun _ => ?_
    exact open_bind (open_text slot) fun new => open_done (ofText new)
  unfold change
  -- of an unknown field nothing is asked, it is refused at once
  split
  · exact hnew .newPassword .password
  split
  · exact hnew .newUsername .username
  split
  · exact viable_bind (open_permissions vocabulary).viable fun names => open_done _
  split
  · exact viable_bind open_truthValue.viable fun flag => open_done _
  · exact .refused _

theorem completable_change (vocabulary : Vocabulary) : Completable (change vocabulary "active") :=
  completable_bind open_truthValue.completable fun flag => completable_done (UserChange.active flag)

theorem open_put : Open put := by
  refine open_next (tokenNamed "") ?_ fun token => ?_
  · exact (open_bind (open_word "in") fun _ => open_bind open_key fun _ => open_done _).completable
  · exact (open_bind (open_word "in") fun _ => open_bind open_key fun _ => open_done _).viable

theorem open_keyOrUser (ofKey ofUser : String → Statement) : Open (keyOrUser ofKey ofUser) := by
  refine open_text_bind "k" (completable_done (ofKey "k")) fun found => ?_
  -- the word `user` asks for a name, any other text is a key or is refused
  split
  · exact (open_bind (open_text .username) fun user => open_done (ofUser user)).viable
  · exact viable_bind (viable_keyNamed found) fun key => open_done (ofKey key)

theorem open_listUsers : Open listUsers :=
  open_bind (open_word "users") fun _ => open_done Statement.listUsers

theorem open_updateUser (vocabulary : Vocabulary) : Open (updateUser vocabulary) := by
  refine open_bind (open_word "user") fun _ => open_bind (open_text .username) fun username => ?_
  refine open_bind (open_word "set") fun _ => open_text_bind "active" ?_ fun field => ?_
  · exact completable_bind (completable_change vocabulary) fun change => completable_done _
  · exact viable_bind (viable_change vocabulary field) fun change => open_done _

theorem open_registerUser (options : Options) : Open (registerUser options) := by
  refine open_bind (open_connective options.strict "user") fun _ => ?_
  refine open_bind (open_text .username) fun username => ?_
  refine open_bind (open_text .password) fun password => ?_
  refine open_bind (open_connective options.strict "with") fun _ => ?_
  refine open_bind (open_permissions options.vocabulary) fun names => ?_
  refine open_bind (open_connective options.strict "and") fun _ => ?_
  refine open_bind (open_connective options.strict "is") fun _ => ?_
  exact open_bind (open_activeFlag options.strict) fun active => open_done _

theorem viable_statementAfter (options : Options) (kind : Token.Kind) :
    Viable (statementAfter options kind) := by
  unfold statementAfter
  split
  · exact open_put.viable
  · exact (open_keyOrUser .get .getUser).viable
  · exact (open_keyOrUser .delete .deleteUser).viable
  · exact (open_registerUser options).viable
  · exact (open_updateUser options.vocabulary).viable
  · exact open_listUsers.viable
  · exact .refused _

theorem completable_statement (options : Options) : Completable (statement options) :=
  completable_next ⟨.keyword .list, "list", 0⟩ open_listUsers.completable

/-! ### Runs -/

theorem exists_more_of_completable {reading : Reading α} {last : Option Nat}
    (h : Completable reading) : ∃ more result, reading.runAfter last more = .ok result := by
  rcases h with ⟨sentence, result, haccepts⟩
  exact ⟨sentence, result, runAfter_eq_ok_iff.2 ⟨sentence, [], by simp, haccepts⟩⟩

/-- Where a viable reading runs out of tokens, more tokens complete it. -/
theorem exists_more_of_viable {reading : Reading α} (h : Viable reading) {position : Nat}
    {tokens : List Token} {cause : ParseError.Cause}
    (hrun : reading.runAfter (some position) tokens = .error ⟨cause, none⟩) :
    (∃ slot, cause = .missing slot) ∧
      ∃ more result, reading.runAfter (some position) (tokens ++ more) = .ok result := by
  -- a position has been passed, so a refusal inside the reading would have one to blame
  induction h generalizing position tokens with
  | done result => exact absurd hrun (by simp)
  | refused cause => exact absurd hrun (by simp)
  | @next slot step completable later ih =>
    cases tokens with
    | nil =>
      -- it stops right here, and here it is viable
      obtain ⟨rfl, -⟩ := ParseError.mk.inj (Except.error.inj hrun)
      rcases completable with ⟨token, hcompletable⟩
      exact ⟨⟨slot, rfl⟩, exists_more_of_completable (completable_next token hcompletable)⟩
    | cons token rest => exact ih token hrun

theorem refused_inv {other cause : ParseError.Cause} {last : Option Nat} {tokens : List Token}
    {position : Nat}
    (h : (refused other : Reading α).runAfter last tokens = .error ⟨cause, some position⟩) :
    (refused other : Reading α) = refused cause ∧ last = some position := by
  rw [runAfter_refused] at h
  obtain ⟨rfl, rfl⟩ := ParseError.mk.inj (Except.error.inj h)
  exact ⟨rfl, rfl⟩

/-- A refusal blames a token of the list, unless the reading refuses from the start.  The tokens in
    front of it are too few, and with it they are refused. -/
theorem exists_blamed {reading : Reading α} {last : Option Nat} {tokens : List Token}
    {cause : ParseError.Cause} {position : Nat}
    (h : reading.runAfter last tokens = .error ⟨cause, some position⟩) :
    (reading = .refused cause ∧ last = some position) ∨
      ∃ before blamed behind, tokens = before ++ blamed :: behind ∧ blamed.position = position ∧
        (∃ missing, reading.runAfter last before = .error ⟨missing, none⟩) ∧
        reading.runAfter last (before ++ [blamed]) = .error ⟨cause, some position⟩ := by
  -- by induction on the tokens: once the first one is taken, the reading behind it may itself
  -- refuse from its start, and then it is the first token that is blamed
  induction tokens generalizing reading last with
  | nil =>
    cases reading with
    | done => exact absurd h (by simp)
    | refused other => exact Or.inl (refused_inv h)
    | next => exact absurd h (by simp)
  | cons token rest ih =>
    cases reading with
    | done => exact absurd h (by simp)
    | refused other => exact Or.inl (refused_inv h)
    | next missing step =>
      refine Or.inr ?_
      rcases ih h with ⟨hrefused, hposition⟩ | ⟨before, blamed, behind, rfl, hblamed, hshort, hrun⟩
      · refine ⟨[], token, rest, rfl, Option.some.inj hposition, ⟨missing, rfl⟩, ?_⟩
        rw [List.nil_append, runAfter_next_cons, hrefused, runAfter_refused, hposition]
      · exact ⟨token :: before, blamed, behind, rfl, hblamed, hshort, hrun⟩

end Reading

/-! ### Commands -/

/-- What has a result or is refused stays so, whatever comes behind. -/
theorem ofTokens_append {options : Options} {tokens : List Token}
    (h : ∀ cause, Statement.ofTokens options tokens ≠ .error ⟨cause, none⟩) (more : List Token) :
    Statement.ofTokens options (tokens ++ more) = Statement.ofTokens options tokens :=
  Reading.runAfter_append _ none tokens more h

/-- What is only too short can be completed. -/
theorem exists_ofTokens_append {options : Options} {tokens : List Token}
    {cause : ParseError.Cause} (h : Statement.ofTokens options tokens = .error ⟨cause, none⟩) :
    (cause = .emptyInput ∨ ∃ slot, cause = .missing slot) ∧
      ∃ more statement, Statement.ofTokens options (tokens ++ more) = .ok statement := by
  cases tokens with
  | nil =>
    obtain ⟨rfl, -⟩ := ParseError.mk.inj (Except.error.inj h)
    exact ⟨Or.inl rfl,
      Reading.exists_more_of_completable (Reading.completable_statement options)⟩
  | cons first rest =>
    rcases Reading.exists_more_of_viable (Reading.viable_statementAfter options first.kind) h with
      ⟨hmissing, hmore⟩
    exact ⟨Or.inr hmissing, hmore⟩

/-- Reading tokens is decided by the shortest of their prefixes that decides it: with a result or a
    refusal nothing behind matters, with neither there is a continuation, and the token that a
    refusal blames is the first one after which there is none. -/
theorem ofTokens_decided_by_prefix (options : Options) (tokens : List Token) :
    ((∀ cause, Statement.ofTokens options tokens ≠ .error ⟨cause, none⟩) →
      ∀ more, Statement.ofTokens options (tokens ++ more) = Statement.ofTokens options tokens) ∧
    (∀ cause, Statement.ofTokens options tokens = .error ⟨cause, none⟩ →
      (cause = .emptyInput ∨ ∃ slot, cause = .missing slot) ∧
      ∃ more statement, Statement.ofTokens options (tokens ++ more) = .ok statement) ∧
    (∀ cause position, Statement.ofTokens options tokens = .error ⟨cause, some position⟩ →
      ∃ before blamed behind, tokens = before ++ blamed :: behind ∧ blamed.position = position ∧
        (∃ missing, Statement.ofTokens options before = .error ⟨missing, none⟩) ∧
        (∃ more statement, Statement.ofTokens options (before ++ more) = .ok statement) ∧
        Statement.ofTokens options (before ++ [blamed]) = .error ⟨cause, some position⟩ ∧
        ∀ more, Statement.ofTokens options (before ++ [blamed] ++ more) =
          .error ⟨cause, some position⟩) := by
  refine ⟨fun h more => ofTokens_append h more, fun cause h => exists_ofTokens_append h, ?_⟩
  intro cause position h
  rcases Reading.exists_blamed h with
    ⟨hrefused, -⟩ | ⟨before, blamed, behind, htokens, hposition, ⟨missing, hshort⟩, hrun⟩
  · exact absurd hrefused (by simp [Reading.statement])
  · refine ⟨before, blamed, behind, htokens, hposition, ⟨missing, hshort⟩,
      (exists_ofTokens_append hshort).2, hrun, ?_⟩
    intro more
    have hdecided : ∀ other, Statement.ofTokens options (before ++ [blamed]) ≠
        .error ⟨other, none⟩ := by
      intro other hother
      rw [Statement.ofTokens, Reading.run, hrun] at hother
      exact absurd hother (by simp)
    rw [ofTokens_append hdecided more]
    exact hrun

end StoreCommand
