import StoreCommand.Proofs.Statement.Rewritten

/-!
# Round trips

A statement is written and read again.  Exactly the expressible statements come back
(`ofText_of_expressible`), but for those with a key that loses its capital letters
(`ofText_of_keyFolds`).  Whatever was read from a text is expressible, so a second reading can only
differ on such a key.
-/

namespace StoreCommand

namespace Statement

/-- The key of the statement is not read as it is written: without its capital letters it is a
    keyword. -/
def KeyFolds (statement : Statement) : Prop :=
  ∃ key, statement.key? = some key ∧ Folds key

def withLoweredKey : Statement → Statement
  | put key value => put (loweredKey key) value
  | get key => get (loweredKey key)
  | delete key => delete (loweredKey key)
  | statement => statement

/-- The key stands where a user could be meant, and in lower case it is the word `user`. -/
def MeansUser : Statement → Prop
  | get key => loweredKey key = "user"
  | delete key => loweredKey key = "user"
  | _ => False

end Statement

/-! ### Expressible statements -/

/-- A statement whose key keeps its letters comes back. -/
theorem ofText_of_expressible {options : Options} {statement : Statement}
    (h : statement.Expressible options.vocabulary) (hkey : ¬ statement.KeyFolds) :
    Statement.ofText options statement.canonical = .ok statement := by
  have hbare : ∀ key, statement.key? = some key → bareText key = key := by
    intro key hsome
    apply bareText_of_not_folds
    intro hfolds
    exact hkey ⟨key, hsome, hfolds⟩
  -- only a key is written as a bare word; what is quoted or a number keeps its text anyway
  cases statement with
  | put key value => rw [ofText_put h.1 h.2, hbare key rfl]
  | get key => rw [ofText_get h.1, hbare key rfl, if_neg h.2]
  | delete key => rw [ofText_delete h.1, hbare key rfl, if_neg h.2]
  | registerUser username password permissions active =>
    exact ofText_registerUser active h.1 h.2.1 h.2.2
  | updateUser username change => exact ofText_updateUser h.1 h.2
  | getUser username => exact ofText_getUser h
  | deleteUser username => exact ofText_deleteUser h
  | listUsers => exact ofText_listUsers

/-- A key without its capital letters is taken for the word `user`. -/
theorem ofText_of_meansUser {options : Options} {statement : Statement}
    (h : statement.Expressible options.vocabulary) (hkey : statement.KeyFolds)
    (huser : statement.MeansUser) :
    Statement.ofText options statement.canonical =
      .error (.parse ⟨.missing .username, none⟩) := by
  rcases hkey with ⟨key, hsome, hfolds⟩
  have hbare := bareText_of_folds hfolds
  cases statement with
  | get name =>
    -- the word that was to be a key asks for the name of a user behind it
    obtain rfl := Option.some.inj hsome
    rw [ofText_get h.1, hbare]
    exact if_pos huser
  | delete name =>
    obtain rfl := Option.some.inj hsome
    rw [ofText_delete h.1, hbare]
    exact if_pos huser
  | _ => exact absurd huser id

theorem ofText_of_keyFolds {options : Options} {statement : Statement}
    (h : statement.Expressible options.vocabulary) (hkey : statement.KeyFolds)
    (huser : ¬ statement.MeansUser) :
    Statement.ofText options statement.canonical = .ok statement.withLoweredKey := by
  rcases hkey with ⟨key, hsome, hfolds⟩
  have hbare := bareText_of_folds hfolds
  cases statement with
  | put name value =>
    obtain rfl := Option.some.inj hsome
    rw [ofText_put h.1 h.2, hbare]
    rfl
  | get name =>
    obtain rfl := Option.some.inj hsome
    rw [ofText_get h.1, hbare]
    exact if_neg huser
  | delete name =>
    obtain rfl := Option.some.inj hsome
    rw [ofText_delete h.1, hbare]
    exact if_neg huser
  | _ => exact absurd hsome (by simp [Statement.key?])

/-! ### Equality -/

theorem Value.same_self {value : Value} (h : value.Expressible) : value.same value = true := by
  cases value with
  | string text => exact beq_self_eq_true text
  | int number => exact beq_self_eq_true number
  | float number =>
    rcases h with ⟨m, rfl⟩
    simp [Value.same, Binary64.same]
  | bool flag => exact beq_self_eq_true flag

theorem Statement.same_self {vocabulary : Vocabulary} {statement : Statement}
    (h : statement.Expressible vocabulary) : statement.same statement = true := by
  cases statement with
  | put key value => simp [Statement.same, Value.same_self h.2]
  | _ => simp [Statement.same]

theorem Value.eq_or_negative {value other : Value} (h : value.Expressible)
    (hsame : value.same other = true) :
    value = other ∨ ∃ m, other = .float (.number true m) := by
  unfold Value.same at hsame
  split at hsame
  · exact Or.inl (congrArg Value.string (eq_of_beq hsame))
  · exact Or.inl (congrArg Value.int (eq_of_beq hsame))
  · rename_i x y
    rcases h with ⟨m, rfl⟩
    cases y with
    | nan => exact absurd hsame (by simp [Binary64.same])
    | number negative n =>
      cases negative with
      | true => exact Or.inr ⟨n, rfl⟩  -- this is the other zero
      | false =>
        simp only [Binary64.same, Bool.and_eq_true, decide_eq_true_eq] at hsame
        rw [hsame.1]
        exact Or.inl rfl
  · exact Or.inl (congrArg Value.bool (eq_of_beq hsame))
  · exact absurd hsame (by simp)

theorem Statement.eq_or_negative {vocabulary : Vocabulary} {statement other : Statement}
    (h : statement.Expressible vocabulary) (hsame : statement.same other = true) :
    statement = other ∨ ∃ key m, other = .put key (.float (.number true m)) := by
  unfold Statement.same at hsame
  split at hsame
  · rename_i key value otherKey otherValue
    rcases Bool.and_eq_true_iff.1 hsame with ⟨hkey, hvalue⟩
    obtain rfl := eq_of_beq hkey
    rcases Value.eq_or_negative h.2 hvalue with rfl | ⟨m, rfl⟩
    · exact Or.inl rfl
    · exact Or.inr ⟨key, m, rfl⟩
  · exact Or.inl (of_decide_eq_true hsame)

/-! ### Signs -/

theorem exists_literal_negative (m : Binary64.Magnitude) :
    ∃ tail, Binary64.literal (.number true m) = '-' :: tail :=
  ⟨_, Binary64.literal_negative m⟩

/-- What is put stands behind the word `put` and a space. -/
theorem exists_tokenize_put (key : String) (value : Value) :
    ∃ rest, tokenize (Statement.put key value).canonical =
      (scan 4 (value.literal.toList ++ rest)).map (⟨.keyword .put, "put", 0⟩ :: ·) := by
  have hcanonical : ∃ rest, (Statement.put key value).canonical.toList =
      (Lexeme.bare "put").spelling ++ ' ' :: (value.literal.toList ++ rest) := by
    rw [Statement.canonical, Statement.pieces, String.intercalate_cons_cons,
      String.intercalate_cons_cons]
    simp only [String.toList_append, List.append_assoc]
    exact ⟨_, rfl⟩
  rcases hcanonical with ⟨rest, hrest⟩
  have hput : (Lexeme.bare "put").Spells "put" := (Piece.word "put").spells
  refine ⟨rest, ?_⟩
  rw [tokenize, hrest, scan_spelling_space hput.1]
  rfl

theorem tokenize_minus {key : String} {value : Value} {tail : List Char}
    (h : value.literal.toList = '-' :: tail) :
    tokenize (Statement.put key value).canonical = .error ⟨.illegalCharacter '-', 4⟩ := by
  rcases exists_tokenize_put key value with ⟨rest, hrest⟩
  have hfirst : Lexeme.first? ('-' :: (tail ++ rest)) = none := rfl
  rw [hrest, h, List.cons_append, scan_of_first?_eq_none (by decide) hfirst]
  rfl

/-! ### Round trips -/

theorem withLoweredKey_ne {statement : Statement} (h : statement.KeyFolds) :
    statement.withLoweredKey.same statement = false := by
  rcases h with ⟨key, hsome, ⟨c, hc, hupper⟩, -⟩
  have hne : loweredKey key ≠ key := by
    intro heq
    exact absurd hupper (by simp [loweredKey_eq_self_iff.1 heq c hc])
  cases statement with
  | put name value =>
    obtain rfl := Option.some.inj hsome
    simp [Statement.withLoweredKey, Statement.same, hne]
  | get name =>
    obtain rfl := Option.some.inj hsome
    simp [Statement.withLoweredKey, Statement.same, hne]
  | delete name =>
    obtain rfl := Option.some.inj hsome
    simp [Statement.withLoweredKey, Statement.same, hne]
  | _ => exact absurd hsome (by simp [Statement.key?])

theorem eq_of_ofText_canonical {options : Options} {statement result : Statement}
    (h : Statement.ofText options statement.canonical = .ok result)
    (hsame : result.same statement = true) : result = statement := by
  rcases Statement.eq_or_negative (expressible_of_ofText h) hsame with heq | ⟨key, m, rfl⟩
  · exact heq
  · -- the zero with a sign equals the other zero, but its text has no tokens
    rcases exists_literal_negative m with ⟨tail, htail⟩
    have hliteral : (Value.float (.number true m)).literal.toList = '-' :: tail := by
      rw [Value.literal, String.toList_ofList, htail]
    rw [Statement.ofText, tokenize_minus hliteral] at h
    exact absurd h (by simp)

/-- The statements that come back, as themselves or as an equal statement. -/
theorem ofText_canonical_iff (options : Options) (statement : Statement) :
    ((∃ result, Statement.ofText options statement.canonical = .ok result ∧
        result.same statement = true) ↔
      statement.Expressible options.vocabulary ∧ ¬ statement.KeyFolds) ∧
    (Statement.ofText options statement.canonical = .ok statement ↔
      statement.Expressible options.vocabulary ∧ ¬ statement.KeyFolds) := by
  have honly : ∀ result, Statement.ofText options statement.canonical = .ok result →
      result.same statement = true →
      statement.Expressible options.vocabulary ∧ ¬ statement.KeyFolds := by
    intro result h hsame
    obtain rfl := eq_of_ofText_canonical h hsame
    have hexpressible := expressible_of_ofText h
    refine ⟨hexpressible, ?_⟩
    intro hkey
    -- a key that folds is missed or comes back in small letters
    by_cases huser : result.MeansUser
    · rw [ofText_of_meansUser hexpressible hkey huser] at h
      exact absurd h (by simp)
    · rw [ofText_of_keyFolds hexpressible hkey huser] at h
      have hne := withLoweredKey_ne hkey
      rw [Except.ok.inj h, hsame] at hne
      exact absurd hne (by simp)
  constructor
  · constructor
    · rintro ⟨result, h, hsame⟩
      exact honly result h hsame
    · rintro ⟨hexpressible, hkey⟩
      exact ⟨statement, ofText_of_expressible hexpressible hkey, Statement.same_self hexpressible⟩
  · constructor
    · intro h
      exact honly statement h (Statement.same_self (expressible_of_ofText h))
    · rintro ⟨hexpressible, hkey⟩
      exact ofText_of_expressible hexpressible hkey

/-- A name with a double quote is written between single ones, and a flag may take two words. -/
example : (Statement.registerUser "a\"b" "pw" ["add", "read"] false).canonical =
      "register user 'a\"b' \"pw\" with \"add,read\" and is not active" ∧
    Statement.ofText {} "register user 'a\"b' \"pw\" with \"add,read\" and is not active" =
      .ok (.registerUser "a\"b" "pw" ["add", "read"] false) := by decide +kernel

/-- What was read from a text and is written canonically is read as the same statement again.  Only
    a key that had to be quoted is not: it loses its capital letters, or a user is missed. -/
theorem ofText_canonical_of_ofText {options : Options} {text : String} {statement : Statement}
    (h : Statement.ofText options text = .ok statement) :
    (¬ statement.KeyFolds → Statement.ofText options statement.canonical = .ok statement ∧
      statement.same statement = true) ∧
    (statement.KeyFolds → statement.MeansUser →
      Statement.ofText options statement.canonical =
        .error (.parse ⟨.missing .username, none⟩)) ∧
    (statement.KeyFolds → ¬ statement.MeansUser →
      Statement.ofText options statement.canonical = .ok statement.withLoweredKey ∧
        statement.withLoweredKey.same statement = false) ∧
    (∀ key, statement.key? = some key → Folds key →
      ∃ tokens, tokenize text = .ok tokens ∧
        ∃ token ∈ tokens, token.kind = .string ∧ token.text = key) := by
  have hexpressible := expressible_of_ofText h
  refine ⟨?_, ?_, ?_, ?_⟩
  · intro hkey
    exact ⟨ofText_of_expressible hexpressible hkey, Statement.same_self hexpressible⟩
  · intro hkey huser
    exact ofText_of_meansUser hexpressible hkey huser
  · intro hkey huser
    exact ⟨ofText_of_keyFolds hexpressible hkey huser, withLoweredKey_ne hkey⟩
  · intro key hsome hfolds
    exact exists_string_of_folds h hsome hfolds

theorem ofText_canonical_of_quoted_keys :
    (Statement.ofText {} "get \"User\"" = .ok (.get "User") ∧
      Statement.ofText {} (Statement.get "User").canonical =
        .error (.parse ⟨.missing .username, none⟩)) ∧
    (Statement.ofText {} "delete 'GET', now" = .ok (.delete "GET") ∧
      Statement.ofText {} (Statement.delete "GET").canonical = .ok (.delete "get")) := by
  have hget : Statement.ofText {} "get \"User\"" = .ok (.get "User") := by decide +kernel
  have hdelete : Statement.ofText {} "delete 'GET', now" = .ok (.delete "GET") := by
    decide +kernel
  have hgetFolds : (Statement.get "User").KeyFolds :=
    ⟨"User", rfl, ⟨'U', by simp, by decide⟩, .user, by decide⟩
  have hdeleteFolds : (Statement.delete "GET").KeyFolds :=
    ⟨"GET", rfl, ⟨'G', by simp, by decide⟩, .get, by decide⟩
  have huser : loweredKey "User" = "user" := by decide
  have hother : loweredKey "GET" ≠ "user" := by decide
  exact ⟨⟨hget, (ofText_canonical_of_ofText hget).2.1 hgetFolds huser⟩, hdelete,
    ((ofText_canonical_of_ofText hdelete).2.2.1 hdeleteFolds hother).1⟩

end StoreCommand
