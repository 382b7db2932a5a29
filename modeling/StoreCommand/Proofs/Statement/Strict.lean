import StoreCommand.Proofs.Statement.Sentence

/-!
# Strict options

Strict options check the connecting words of a registration, which lenient options skip, and read
the state of the new user from one or two tokens instead of one.  Even so they only take commands
away: run side by side on the same tokens, the two readings agree, or the strict one stops at a word
that the lenient one does not look at.

`Narrowed` lists the ways in which two such runs can end together, and `Narrows` says that two
readings end so on all tokens.  Both readings of a registration are put together from the same
parts, so the relation is shown part by part, from the last part to the first.
-/

namespace StoreCommand

namespace Reading

variable {α : Type}

/-! ### Readings that refuse no token -/

/-- The reading takes any tokens, so it can only run out of them. -/
inductive Unrefusing : Reading α → Prop where
  | done (result : α) : Unrefusing (.done result)
  | next {slot : ParseError.Slot} {step : Token → Reading α}
      (later : ∀ token, Unrefusing (step token)) : Unrefusing (.next (.missing slot) step)

theorem missing_of_unrefusing {reading : Reading α} (h : Unrefusing reading)
    {last : Option Nat} {tokens : List Token} {error : ParseError}
    (hrun : reading.runAfter last tokens = .error error) :
    ∃ slot, error = ⟨.missing slot, none⟩ := by
  induction h generalizing last tokens with
  | done result => exact absurd hrun (by simp)
  | @next slot step later ih =>
    cases tokens with
    | nil => exact ⟨slot, (Except.error.inj hrun).symm⟩
    | cons token rest => exact ih token hrun

/-! ### Two runs on the same tokens -/

/-- The words that strict options check. -/
def checkedWords : List String :=
  ["user", "with", "and", "is", "active"]

/-- A strict run may stop at this word while the lenient run ends like this.  Only the words in
    front of the permission list are reached before the list can be refused. -/
structure MayBlame (expected : String) (lenient : Except ParseError α) : Prop where
  checked : expected ∈ checkedWords
  early : ∀ name position, lenient = .error ⟨.unknownPermission name, position⟩ →
    expected = "user" ∨ expected = "with"

/-- The tokens end with the word `not`, and `count` tokens stand in front of it. -/
def EndsNegated (count : Nat) (tokens : List Token) : Prop :=
  ∃ front flag, tokens = front ++ [flag] ∧ front.length = count ∧ flag.text = "not"

/-- `Narrowed count tokens strict lenient`: how a strict and a lenient run on `tokens` can end
    together, if `count` tokens stand in front of the state of the user. -/
inductive Narrowed (count : Nat) (tokens : List Token) :
    Except ParseError α → Except ParseError α → Prop where
  | agreed (result : α) : Narrowed count tokens (.ok result) (.ok result)
  | refused (name : String) (position : Option Nat) :
      Narrowed count tokens (.error ⟨.unknownPermission name, position⟩)
        (.error ⟨.unknownPermission name, position⟩)
  | short (slot other : ParseError.Slot) :
      Narrowed count tokens (.error ⟨.missing slot, none⟩) (.error ⟨.missing other, none⟩)
  | stopped {expected found : String} {position : Nat} {lenient : Except ParseError α}
      (blame : MayBlame expected lenient) :
      Narrowed count tokens (.error ⟨.wrongWord expected found, some position⟩) lenient
  | negated (result : α) (ends : EndsNegated count tokens) :
      Narrowed count tokens (.error ⟨.missing (.word "active"), none⟩) (.ok result)

theorem narrowed_cons {count : Nat} {tokens : List Token} {strict lenient : Except ParseError α}
    (h : Narrowed count tokens strict lenient) (token : Token) :
    Narrowed (count + 1) (token :: tokens) strict lenient := by
  cases h with
  | agreed result => exact .agreed result
  | refused name position => exact .refused name position
  | short slot other => exact .short slot other
  | stopped blame => exact .stopped blame
  | negated result ends =>
    -- one more token in front of the flag
    rcases ends with ⟨front, flag, rfl, hlength, hnot⟩
    refine .negated result ⟨token :: front, flag, rfl, ?_, hnot⟩
    rw [List.length_cons, hlength]

/-! ### What follows from how two runs end -/

/-- The result blames a token for not being one of these words. -/
def BlamesWord (words : List String) (result : Except ParseError α) : Prop :=
  ∃ expected found position,
    expected ∈ words ∧ result = .error ⟨.wrongWord expected found, some position⟩

section Outcomes

variable {count : Nat} {tokens : List Token} {strict lenient : Except ParseError α}

theorem lenient_of_strict (h : Narrowed count tokens strict lenient) {result : α}
    (hstrict : strict = .ok result) : lenient = .ok result := by
  cases h with
  | agreed other => exact hstrict
  | refused | short | stopped | negated => exact absurd hstrict (by simp)

theorem strict_of_lenient (h : Narrowed count tokens strict lenient) {result : α}
    (hlenient : lenient = .ok result) :
    strict = .ok result ∨ BlamesWord checkedWords strict ∨
      (strict = .error ⟨.missing (.word "active"), none⟩ ∧ EndsNegated count tokens) := by
  cases h with
  | agreed other => exact Or.inl hlenient
  | stopped blame => exact Or.inr (Or.inl ⟨_, _, _, blame.checked, rfl⟩)
  | negated other ends => exact Or.inr (Or.inr ⟨rfl, ends⟩)
  | refused | short => exact absurd hlenient (by simp)

theorem strict_of_unknownPermission (h : Narrowed count tokens strict lenient) {name : String}
    {position : Option Nat} (hlenient : lenient = .error ⟨.unknownPermission name, position⟩) :
    strict = .error ⟨.unknownPermission name, position⟩ ∨
      BlamesWord ["user", "with"] strict := by
  cases h with
  | refused other place => exact Or.inl hlenient
  | @stopped expected found place lenient blame =>
    refine Or.inr ⟨expected, found, place, ?_, rfl⟩
    rcases blame.early name position hlenient with rfl | rfl
    · simp
    · simp
  | agreed | short | negated => exact absurd hlenient (by simp)

theorem strict_of_missing (h : Narrowed count tokens strict lenient) {slot : ParseError.Slot}
    {position : Option Nat} (hlenient : lenient = .error ⟨.missing slot, position⟩) :
    (∃ other, strict = .error ⟨.missing other, none⟩) ∨ BlamesWord checkedWords strict := by
  cases h with
  | short other place => exact Or.inl ⟨other, rfl⟩
  | stopped blame => exact Or.inr ⟨_, _, _, blame.checked, rfl⟩
  | agreed | refused | negated => exact absurd hlenient (by simp)

end Outcomes

/-! ### Readings that narrow -/

/-- On all tokens, the two readings end together in one of the ways of `Narrowed`. -/
def Narrows (count : Nat) (strict lenient : Reading α) : Prop :=
  ∀ last tokens,
    Narrowed count tokens (strict.runAfter last tokens) (lenient.runAfter last tokens)

theorem narrows_text_bind {count : Nat} {slot : ParseError.Slot}
    {strict lenient : String → Reading α}
    (h : ∀ found, Narrows count (strict found) (lenient found)) :
    Narrows (count + 1) (text slot >>= strict) (text slot >>= lenient) := by
  intro last tokens
  cases tokens with
  | nil => exact .short slot slot
  | cons token rest => exact narrowed_cons (h token.text (some token.position) rest) token

theorem narrows_connective_bind {count : Nat} {expected : String} {strict lenient : Reading α}
    (hchecked : expected ∈ checkedWords)
    (hearly : (expected = "user" ∨ expected = "with") ∨ Unrefusing lenient)
    (h : Narrows count strict lenient) :
    Narrows (count + 1) (connective true expected >>= fun _ => strict)
      (connective false expected >>= fun _ => lenient) := by
  intro last tokens
  cases tokens with
  | nil => exact .short _ _
  | cons token rest =>
    have hstrict : (connective true expected >>= fun _ => strict) =
        (word expected >>= fun _ => strict) := rfl
    have hlenient : (connective false expected >>= fun _ => lenient).runAfter last (token :: rest) =
        lenient.runAfter (some token.position) rest := rfl
    rw [hstrict, hlenient, runAfter_word_bind]
    by_cases htext : token.text = expected
    · rw [if_pos htext]
      exact narrowed_cons (h (some token.position) rest) token
    · -- the strict run stops; behind the list the lenient one has no permission left to refuse
      rw [if_neg htext]
      refine .stopped ⟨hchecked, ?_⟩
      intro name position hrefused
      rcases hearly with hword | hunrefusing
      · exact hword
      · rcases missing_of_unrefusing hunrefusing hrefused with ⟨slot, hmissing⟩
        exact absurd hmissing (by simp)

theorem narrows_permissions_bind {count : Nat} {vocabulary : Vocabulary}
    {strict lenient : List String → Reading α}
    (h : ∀ names, Narrows count (strict names) (lenient names)) :
    Narrows (count + 1) (permissions vocabulary >>= strict)
      (permissions vocabulary >>= lenient) := by
  intro last tokens
  cases tokens with
  | nil => exact .short _ _
  | cons token rest =>
    rw [runAfter_permissions_bind, runAfter_permissions_bind]
    cases PermissionList.read vocabulary token.text with
    | ok names => exact narrowed_cons (h names (some token.position) rest) token
    | error unknown => exact .refused unknown _

/-- The last part: lenient options take one token, and strict options one or two. -/
theorem narrows_activeFlag_bind (ofFlag : Bool → α) :
    Narrows 0 (activeFlag true >>= fun flag => done (ofFlag flag))
      (activeFlag false >>= fun flag => done (ofFlag flag)) := by
  intro last tokens
  cases tokens with
  | nil => exact .short _ _
  | cons token rest =>
    have hlenient : (activeFlag false >>= fun flag => done (ofFlag flag)).runAfter last
        (token :: rest) = .ok (ofFlag (decide (token.text = "active"))) :=
      runAfter_done (some token.position) _ rest
    have hblame : ∀ result : α, MayBlame "active" (.ok result) := by
      intro result
      exact ⟨by decide, fun name position hrefused => absurd hrefused (by simp)⟩
    rw [hlenient, runAfter_strictFlag_bind]
    by_cases hnot : token.text = "not"
    · -- lenient options are done here, and strict options still want the word `active`
      have hinactive : decide (token.text = "active") = false := by
        rw [hnot]
        decide
      rw [if_pos hnot, hinactive]
      cases rest with
      | nil => exact .negated _ ⟨[], token, rfl, rfl, hnot⟩
      | cons flag rest =>
        rw [runAfter_word_bind]
        by_cases hactive : flag.text = "active"
        · rw [if_pos hactive, runAfter_done]
          exact .agreed _
        · rw [if_neg hactive]
          exact .stopped (hblame _)
    · rw [if_neg hnot]
      by_cases hactive : token.text = "active"
      · rw [if_pos hactive, decide_eq_true hactive, runAfter_done]
        exact .agreed _
      · rw [if_neg hactive]
        exact .stopped (hblame _)

theorem unrefusing_activeFlag_bind (ofFlag : Bool → α) :
    Unrefusing (activeFlag false >>= fun flag => done (ofFlag flag)) :=
  .next fun _ => .done _

theorem unrefusing_connective_bind {expected : String} {lenient : Reading α}
    (h : Unrefusing lenient) : Unrefusing (connective false expected >>= fun _ => lenient) :=
  .next fun _ => h

theorem narrows_registerUser (vocabulary : Vocabulary) :
    Narrows 7 (registerUser ⟨vocabulary, true⟩) (registerUser ⟨vocabulary, false⟩) := by
  refine narrows_connective_bind (by decide) (Or.inl (Or.inl rfl)) ?_
  refine narrows_text_bind fun username => narrows_text_bind fun password => ?_
  refine narrows_connective_bind (by decide) (Or.inl (Or.inr rfl)) ?_
  refine narrows_permissions_bind fun names => ?_
  -- behind the list no permission is left to be refused
  have hflag := unrefusing_activeFlag_bind fun active =>
    Statement.registerUser username password names active
  refine narrows_connective_bind (by decide) (Or.inr (unrefusing_connective_bind hflag)) ?_
  refine narrows_connective_bind (by decide) (Or.inr hflag) ?_
  exact narrows_activeFlag_bind _

/-- Only a registration looks at the strictness. -/
theorem statementAfter_of_ne_register {kind : Token.Kind} (h : kind ≠ .keyword .register)
    (vocabulary : Vocabulary) (strict other : Bool) :
    statementAfter ⟨vocabulary, strict⟩ kind = statementAfter ⟨vocabulary, other⟩ kind := by
  unfold statementAfter
  split
  · rfl
  · rfl
  · rfl
  · exact absurd rfl h
  · rfl
  · rfl
  · rfl

end Reading

/-! ### Commands -/

/-- The results under strict and under lenient options. -/
theorem narrowed_ofTokens {first : Token} (hregister : first.kind = .keyword .register)
    (vocabulary : Vocabulary) (rest : List Token) :
    Reading.Narrowed 8 (first :: rest) (Statement.ofTokens ⟨vocabulary, true⟩ (first :: rest))
      (Statement.ofTokens ⟨vocabulary, false⟩ (first :: rest)) := by
  have hrun : ∀ strict, Statement.ofTokens ⟨vocabulary, strict⟩ (first :: rest) =
      (Reading.registerUser ⟨vocabulary, strict⟩).runAfter (some first.position) rest := by
    intro strict
    rw [Statement.ofTokens, Reading.run, Reading.statement, Reading.runAfter_next_cons, hregister]
    rfl
  rw [hrun, hrun]
  exact Reading.narrowed_cons (Reading.narrows_registerUser vocabulary _ rest) first

theorem ofTokens_of_ne_register {tokens : List Token}
    (h : ∀ first ∈ tokens.head?, first.kind ≠ .keyword .register) (vocabulary : Vocabulary) :
    Statement.ofTokens ⟨vocabulary, true⟩ tokens =
      Statement.ofTokens ⟨vocabulary, false⟩ tokens := by
  cases tokens with
  | nil => rfl
  | cons first rest =>
    have hafter := Reading.statementAfter_of_ne_register (h first rfl) vocabulary true false
    exact congrArg (fun reading => reading.runAfter (some first.position) rest) hafter

/-- Strict options only take commands away.  Commands other than registrations are read alike, and
    for a registration the strict result is the lenient one, or it stops at a checked word, or it
    lacks the word behind a final `not`. -/
theorem ofTokens_strict_narrows (vocabulary : Vocabulary) (tokens : List Token) :
    ((∀ first ∈ tokens.head?, first.kind ≠ .keyword .register) →
      Statement.ofTokens ⟨vocabulary, true⟩ tokens =
        Statement.ofTokens ⟨vocabulary, false⟩ tokens) ∧
    ((∃ first ∈ tokens.head?, first.kind = .keyword .register) →
      (∀ statement, Statement.ofTokens ⟨vocabulary, true⟩ tokens = .ok statement →
        Statement.ofTokens ⟨vocabulary, false⟩ tokens = .ok statement) ∧
      (∀ statement, Statement.ofTokens ⟨vocabulary, false⟩ tokens = .ok statement →
        Statement.ofTokens ⟨vocabulary, true⟩ tokens = .ok statement ∨
        Reading.BlamesWord ["user", "with", "and", "is", "active"]
          (Statement.ofTokens ⟨vocabulary, true⟩ tokens) ∨
        (Statement.ofTokens ⟨vocabulary, true⟩ tokens = .error ⟨.missing (.word "active"), none⟩ ∧
          ∃ front flag, tokens = front ++ [flag] ∧ front.length = 8 ∧ flag.text = "not")) ∧
      (∀ name position,
        Statement.ofTokens ⟨vocabulary, false⟩ tokens =
          .error ⟨.unknownPermission name, position⟩ →
        Statement.ofTokens ⟨vocabulary, true⟩ tokens =
          .error ⟨.unknownPermission name, position⟩ ∨
        Reading.BlamesWord ["user", "with"] (Statement.ofTokens ⟨vocabulary, true⟩ tokens)) ∧
      (∀ slot position,
        Statement.ofTokens ⟨vocabulary, false⟩ tokens = .error ⟨.missing slot, position⟩ →
        (∃ other, Statement.ofTokens ⟨vocabulary, true⟩ tokens = .error ⟨.missing other, none⟩) ∨
        Reading.BlamesWord ["user", "with", "and", "is", "active"]
          (Statement.ofTokens ⟨vocabulary, true⟩ tokens))) ∧
    (∀ statement other, Statement.ofTokens ⟨vocabulary, true⟩ tokens = .ok statement →
      Statement.ofTokens ⟨vocabulary, false⟩ tokens = .ok other → statement = other) := by
  by_cases hregister : ∃ first ∈ tokens.head?, first.kind = .keyword .register
  · obtain ⟨first, rest, rfl⟩ : ∃ first rest, tokens = first :: rest := by
      cases tokens with
      | nil => exact absurd hregister (by simp)
      | cons first rest => exact ⟨first, rest, rfl⟩
    obtain hkind : first.kind = .keyword .register := by simpa using hregister
    have hnarrowed := narrowed_ofTokens hkind vocabulary rest
    refine ⟨fun hother => absurd hkind (hother first rfl), fun _ => ⟨?_, ?_, ?_, ?_⟩, ?_⟩
    · intro statement hstrict
      exact Reading.lenient_of_strict hnarrowed hstrict
    · intro statement hlenient
      exact Reading.strict_of_lenient hnarrowed hlenient
    · intro name position hlenient
      exact Reading.strict_of_unknownPermission hnarrowed hlenient
    · intro slot position hlenient
      exact Reading.strict_of_missing hnarrowed hlenient
    · intro statement other hstrict hlenient
      rw [Reading.lenient_of_strict hnarrowed hstrict] at hlenient
      exact Except.ok.inj hlenient
  · have hother : ∀ first ∈ tokens.head?, first.kind ≠ .keyword .register := by
      intro first hfirst hkind
      exact hregister ⟨first, hfirst, hkind⟩
    have hsame := ofTokens_of_ne_register hother vocabulary
    refine ⟨fun _ => hsame, fun h => absurd h hregister, ?_⟩
    intro statement other hstrict hlenient
    rw [hsame, hlenient] at hstrict
    exact (Except.ok.inj hstrict).symm

/-- Of a registration that ends with `not`, lenient options read that the user is not active, and
    strict options wait for the word behind it. -/
example :
    let tokens := ["register", "user", "ann", "pw", "with", "", "and", "is", "not"].map
      fun text => (⟨.keyword .register, text, 0⟩ : Token)
    (Statement.ofTokens { strict := false } tokens).toOption =
        some (.registerUser "ann" "pw" [] false) ∧
      (Statement.ofTokens { strict := true } tokens).toOption = none := by
  decide +kernel

end StoreCommand
