import StoreCommand.Proofs.Lexeme.Locality
import StoreCommand.Proofs.Statement.Parts

/-!
# What a reading looks at

A token has a kind, a text and a position.  Of all the tokens of a command a reading looks at the
kind of the first one and at the value that is put; everywhere else it looks at texts alone.
Positions are not looked at, they are only handed on when a token is refused.

So two lists of tokens that agree in these respects are read alike, token by token: they give the
same statement, or the same error at the same place in the list.  The first half of the argument is
about the tree of a reading, where `ReadsTexts` says that tokens with the same text lead to the same
branch; the second half follows two runs down one branch.
-/

namespace StoreCommand

namespace Reading

variable {α β : Type}

/-! ### Readings that look at texts -/

/-- Tokens with the same text lead the reading on in the same way. -/
inductive ReadsTexts : Reading α → Prop where
  | done (result : α) : ReadsTexts (.done result)
  | refused (cause : ParseError.Cause) : ReadsTexts (.refused cause)
  | next {missing : ParseError.Cause} {step : Token → Reading α}
      (same : ∀ token other : Token, token.text = other.text → step token = step other)
      (later : ∀ token, ReadsTexts (step token)) : ReadsTexts (.next missing step)

theorem readsTexts_bind {reading : Reading α} {continuation : α → Reading β}
    (h : ReadsTexts reading) (hlater : ∀ result, ReadsTexts (continuation result)) :
    ReadsTexts (reading >>= continuation) := by
  induction h with
  | done result => exact hlater result
  | refused cause => exact .refused cause
  | @next missing step same later ih =>
    refine .next (fun token other htext => ?_) ih
    rw [same token other htext]

theorem readsTexts_text (slot : ParseError.Slot) : ReadsTexts (text slot) := by
  refine .next (fun token other htext => ?_) fun token => .done token.text
  exact congrArg done htext

theorem readsTexts_permissions (vocabulary : Vocabulary) :
    ReadsTexts (permissions vocabulary) := by
  refine readsTexts_bind (readsTexts_text .permissions) fun found => ?_
  split
  · exact .done _
  · exact .refused _

theorem kept_readsTexts : Kept fun _ => ReadsTexts where
  done := .done
  refused _ := .refused _
  text := readsTexts_text
  bind := readsTexts_bind

/-- Only the value that is put depends on more than its text. -/
theorem readsTexts_statementAfter {options : Options} {kind : Token.Kind}
    (h : kind ≠ .keyword .put) : ReadsTexts (statementAfter options kind) := by
  unfold statementAfter
  split
  · exact absurd rfl h
  · exact kept_readsTexts.keyOrUser .get .getUser
  · exact kept_readsTexts.keyOrUser .delete .deleteUser
  · exact kept_readsTexts.registerUser (readsTexts_permissions options.vocabulary)
  · exact kept_readsTexts.updateUser (readsTexts_permissions options.vocabulary)
  · exact kept_readsTexts.listUsers
  · exact .refused _

/-! ### Two runs -/

/-- Two results that are the same but for positions: one result, one error without a position, or
    one cause that is blamed on the tokens with the same index. -/
inductive Agree (tokens others : List Token) :
    Except ParseError α → Except ParseError α → Prop where
  | ok (result : α) : Agree tokens others (.ok result) (.ok result)
  | short (cause : ParseError.Cause) : Agree tokens others (.error ⟨cause, none⟩)
      (.error ⟨cause, none⟩)
  | blamed (cause : ParseError.Cause) {index : Nat} {token other : Token}
      (isToken : tokens[index]? = some token) (isOther : others[index]? = some other) :
      Agree tokens others (.error ⟨cause, some token.position⟩)
        (.error ⟨cause, some other.position⟩)

theorem Agree.cons {tokens others : List Token} {result otherResult : Except ParseError α}
    (h : Agree tokens others result otherResult) (token other : Token) :
    Agree (token :: tokens) (other :: others) result otherResult := by
  cases h with
  | ok result => exact .ok result
  | short cause => exact .short cause
  | @blamed cause index _ _ isToken isOther =>
    have htoken := (List.getElem?_cons_succ (a := token)).trans isToken
    have hother := (List.getElem?_cons_succ (a := other)).trans isOther
    exact .blamed cause htoken hother

theorem Agree.eq_ok_iff {tokens others : List Token} {result otherResult : Except ParseError α}
    (h : Agree tokens others result otherResult) {value : α} :
    result = .ok value ↔ otherResult = .ok value := by
  cases h with
  | ok result => exact Iff.rfl
  | short cause => simp
  | blamed cause => simp

/-- A reading that looks at texts is run alike on the same texts.  The tokens read last are part of
    the lists, because a reading may refuse them. -/
theorem agree_of_readsTexts {reading : Reading α} (h : ReadsTexts reading) (last other : Token)
    {tokens others : List Token} (htexts : tokens.map Token.text = others.map Token.text) :
    Agree (last :: tokens) (other :: others) (reading.runAfter (some last.position) tokens)
      (reading.runAfter (some other.position) others) := by
  induction h generalizing last other tokens others with
  | done result =>
    rw [runAfter_done, runAfter_done]
    exact .ok result
  | refused cause =>
    rw [runAfter_refused, runAfter_refused]
    -- what is refused is blamed on the token read last
    have hlast : (last :: tokens)[0]? = some last := rfl
    have hother : (other :: others)[0]? = some other := rfl
    exact .blamed cause hlast hother
  | @next missing step same later ih =>
    cases tokens with
    | nil =>
      -- both lists end here, and an error at the end has no position
      obtain rfl : others = [] := List.map_eq_nil_iff.1 htexts.symm
      exact .short missing
    | cons token rest =>
      cases others with
      | nil => exact absurd htexts (by simp)
      | cons second behind =>
        obtain ⟨htext, hrest⟩ := List.cons.inj htexts
        have hrun := ih token token second hrest
        rw [runAfter_next_cons, runAfter_next_cons, ← same token second htext]
        exact hrun.cons last other

theorem agree_put {first second : Token} {rest others : List Token}
    (htexts : rest.map Token.text = others.map Token.text)
    (hvalue : rest.head?.map Value.ofToken = others.head?.map Value.ofToken) :
    Agree (first :: rest) (second :: others) (put.runAfter (some first.position) rest)
      (put.runAfter (some second.position) others) := by
  cases rest with
  | nil =>
    obtain rfl : others = [] := List.map_eq_nil_iff.1 htexts.symm
    exact .short (.missing .value)
  | cons token rest =>
    cases others with
    | nil => exact absurd htexts (by simp)
    | cons other others =>
      obtain ⟨-, hrest⟩ := List.cons.inj htexts
      have hsame : Value.ofToken token = Value.ofToken other := Option.some.inj hvalue
      rw [put_eq, runAfter_next_cons, runAfter_next_cons, ← hsame]
      exact (agree_of_readsTexts (kept_readsTexts.putValue _) token other hrest).cons first second

end Reading

/-! ### Commands -/

/-- Lists of tokens that a reading cannot tell apart: the texts are the same, the first kinds are
    the same, and what is put is the same value. -/
structure Alike (tokens others : List Token) : Prop where
  texts : tokens.map Token.text = others.map Token.text
  first : tokens.head?.map Token.kind = others.head?.map Token.kind
  value : tokens.head?.map Token.kind = some (.keyword .put) →
    tokens[1]?.map Value.ofToken = others[1]?.map Value.ofToken

theorem agree_of_alike (options : Options) {tokens others : List Token} (h : Alike tokens others) :
    Reading.Agree tokens others (Statement.ofTokens options tokens)
      (Statement.ofTokens options others) := by
  cases tokens with
  | nil =>
    obtain rfl : others = [] := List.map_eq_nil_iff.1 h.texts.symm
    exact .short .emptyInput
  | cons first rest =>
    cases others with
    | nil => exact absurd h.texts (by simp)
    | cons second others =>
      have hkind : first.kind = second.kind := Option.some.inj h.first
      obtain ⟨-, hrest⟩ := List.cons.inj h.texts
      rw [Statement.ofTokens, Statement.ofTokens, Reading.run, Reading.run, Reading.statement,
        Reading.runAfter_next_cons, Reading.runAfter_next_cons, ← hkind]
      by_cases hput : first.kind = .keyword .put
      · rw [hput]
        apply Reading.agree_put hrest
        have hvalue := h.value (congrArg some hput)
        rwa [List.getElem?_cons_succ, List.getElem?_cons_succ, ← List.head?_eq_getElem?,
          ← List.head?_eq_getElem?] at hvalue
      · exact Reading.agree_of_readsTexts (Reading.readsTexts_statementAfter hput) first second
          hrest

/-- Any other token with the same text may stand behind the first one, but not for the value that is
    put. -/
theorem alike_of_text_eq {front back : List Token} {token other : Token} (hne : front ≠ [])
    (hput : ∀ first, front = [first] → first.kind ≠ .keyword .put)
    (htext : other.text = token.text) :
    Alike (front ++ token :: back) (front ++ other :: back) := by
  cases front with
  | nil => exact absurd rfl hne
  | cons first rest =>
    -- the value that is put is the second token, which was exchanged only if `front` is one token
    refine ⟨by simp [htext], rfl, fun hkind => ?_⟩
    cases rest with
    | nil => exact absurd (Option.some.inj hkind) (hput first rfl)
    | cons second rest => rfl

theorem alike_of_content_eq {tokens others : List Token}
    (h : others.map Token.content = tokens.map Token.content) : Alike tokens others := by
  have hmap : ∀ {β : Type} (f : Token.Kind × String → β),
      tokens.map (fun token => f token.content) = others.map (fun token => f token.content) := by
    intro β f
    have hsame := (congrArg (List.map f) h).symm
    rwa [List.map_map, List.map_map] at hsame
  have hkinds : tokens.map Token.kind = others.map Token.kind := hmap Prod.fst
  have hvalues : tokens.map Value.ofToken = others.map Value.ofToken :=
    hmap fun content => Value.ofToken ⟨content.1, content.2, 0⟩
  refine ⟨hmap Prod.snd, ?_, fun _ => ?_⟩
  · rw [← List.head?_map, ← List.head?_map, hkinds]
  · rw [← List.getElem?_map, ← List.getElem?_map, hvalues]

/-- A reading cannot tell lists apart in which the texts, the first kind and the value that is put
    are the same.  In particular it makes no difference whether a word is quoted, other than the
    first one and that value, nor where the tokens stand. -/
theorem ofTokens_agree_of_alike (options : Options) :
    (∀ tokens others, Alike tokens others →
      Reading.Agree tokens others (Statement.ofTokens options tokens)
        (Statement.ofTokens options others)) ∧
    (∀ (front back : List Token) (token other : Token), front ≠ [] →
      (∀ first, front = [first] → first.kind ≠ .keyword .put) → other.text = token.text →
      Reading.Agree (front ++ token :: back) (front ++ other :: back)
        (Statement.ofTokens options (front ++ token :: back))
        (Statement.ofTokens options (front ++ other :: back))) ∧
    (∀ tokens others : List Token, others.map Token.content = tokens.map Token.content →
      Reading.Agree tokens others (Statement.ofTokens options tokens)
        (Statement.ofTokens options others)) := by
  refine ⟨?_, ?_, ?_⟩
  · intro tokens others h
    exact agree_of_alike options h
  · intro front back token other hne hput htext
    exact agree_of_alike options (alike_of_text_eq hne hput htext)
  · intro tokens others h
    exact agree_of_alike options (alike_of_content_eq h)

/-- The text `IN` is not the word `in`, wherever it stands and whether or not it is quoted. -/
theorem ofTokens_agree_of_capitals :
    let bare : List Token := [⟨.keyword .put, "put", 0⟩, ⟨.string, "7", 4⟩, ⟨.word, "IN", 8⟩]
    let quoted : List Token := [⟨.keyword .put, "put", 0⟩, ⟨.string, "7", 4⟩, ⟨.string, "IN", 8⟩]
    let moved : List Token := [⟨.keyword .put, "put", 2⟩, ⟨.word, "7", 1⟩, ⟨.string, "IN", 1⟩]
    Alike bare moved ∧
      Reading.Agree bare moved (Statement.ofTokens {} bare) (Statement.ofTokens {} moved) ∧
      Statement.ofTokens {} bare = .error ⟨.wrongWord "in" "IN", some 8⟩ ∧
      Statement.ofTokens {} moved = .error ⟨.wrongWord "in" "IN", some 1⟩ ∧
      Reading.Agree bare quoted (Statement.ofTokens {} bare) (Statement.ofTokens {} quoted) ∧
      Reading.Agree bare (bare.map (Token.shift 3)) (Statement.ofTokens {} bare)
        (Statement.ofTokens {} (bare.map (Token.shift 3))) := by
  intro bare quoted moved
  have halike : Alike bare moved := ⟨rfl, rfl, fun _ => rfl⟩
  have hplace : ∀ first, [(⟨.keyword .put, "put", 0⟩ : Token), ⟨.string, "7", 4⟩] = [first] →
      first.kind ≠ .keyword .put := by
    intro first hfirst
    exact absurd hfirst (by simp)
  exact ⟨halike, (ofTokens_agree_of_alike {}).1 bare moved halike, by decide +kernel,
    by decide +kernel,
    (ofTokens_agree_of_alike {}).2.1 [_, _] [] ⟨.word, "IN", 8⟩ ⟨.string, "IN", 8⟩ (by simp) hplace
      rfl,
    (ofTokens_agree_of_alike {}).2.2 bare _ rfl⟩

end StoreCommand
