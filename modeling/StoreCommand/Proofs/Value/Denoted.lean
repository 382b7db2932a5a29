import StoreCommand.Proofs.Binary64.NumberText
import StoreCommand.Proofs.Value.Expressible

/-!
# What a token denotes

A token of any text denotes one value, and `Token.Denotes` says which, from its kind and the
grammars of numerals alone.  A token of an integer denotes a signed number of 64 bits if its text
denotes an integer in this range; otherwise, and for a token with a dot, the text may denote a
binary64 number; and a text that denotes no number stays what it is.  Reading a token gives what it
denotes (`ofToken_eq_iff_denotes`), so each of the three stages is entered exactly when it should
be.

A text of digits always denotes a number, so nothing that the scanner takes for a number is read as
a string (`ofToken_of_scannable`); `ofToken_exact` puts this together with the numbers that digits
stand for.
-/

namespace StoreCommand

/-! ### The values of tokens -/

inductive Token.Denotes (token : Token) : Value → Prop where
  | int {number : Int64} (kind : token.kind = .integer)
      (integer : IntegerText token.text.toList number.toInt) : token.Denotes (.int number)
  | float {x : Binary64} (kind : token.kind = .integer ∨ token.kind = .decimal)
      (outside : token.kind = .integer →
        ∀ number : Int64, ¬ IntegerText token.text.toList number.toInt)
      (number : Binary64.NumberText token.text.toList x) : token.Denotes (.float x)
  | text (kind : token.kind = .integer ∨ token.kind = .decimal)
      (number : ∀ x, ¬ Binary64.NumberText token.text.toList x) :
      token.Denotes (.string token.text)
  | trueWord (kind : token.kind = .keyword .trueWord) : token.Denotes (.bool true)
  | falseWord (kind : token.kind = .keyword .falseWord) : token.Denotes (.bool false)
  | other (integer : token.kind ≠ .integer) (decimal : token.kind ≠ .decimal)
      (trueWord : token.kind ≠ .keyword .trueWord)
      (falseWord : token.kind ≠ .keyword .falseWord) : token.Denotes (.string token.text)

namespace Value

/-! ### Numbers -/

theorem ofNumberText_eq_float {text : String} {x : Binary64}
    (h : Binary64.NumberText text.toList x) : ofNumberText text = float x := by
  rw [ofNumberText, Binary64.ofText?_eq_some_iff.2 h]

theorem ofNumberText_eq_string {text : String}
    (h : ∀ x, ¬ Binary64.NumberText text.toList x) : ofNumberText text = string text := by
  rw [ofNumberText, Binary64.ofText?_eq_none_iff.2 h]

/-! ### Reading gives what is denoted -/

theorem ofToken_of_denotes {token : Token} {value : Value} (h : token.Denotes value) :
    ofToken token = value := by
  cases h with
  | int kind integer => rw [ofToken, kind, int64?_eq_some_iff.2 integer]
  | float kind outside number =>
    rcases kind with kind | kind
    · rw [ofToken, kind]
      simp only [int64?_eq_none_iff.2 (outside kind)]
      exact ofNumberText_eq_float number
    · rw [ofToken, kind]
      exact ofNumberText_eq_float number
  | text kind number =>
    rcases kind with kind | kind
    · -- a text that denotes no number denotes no integer either
      have outside : ∀ integer : Int64, ¬ IntegerText token.text.toList integer.toInt := by
        intro integer hinteger
        obtain ⟨x, hx⟩ := Binary64.exists_numberText_of_integerText hinteger
        exact number x hx
      rw [ofToken, kind]
      simp only [int64?_eq_none_iff.2 outside]
      exact ofNumberText_eq_string number
    · rw [ofToken, kind]
      exact ofNumberText_eq_string number
  | trueWord kind => rw [ofToken, kind]
  | falseWord kind => rw [ofToken, kind]
  | other integer decimal trueWord falseWord =>
    unfold ofToken
    split
    · rename_i kind
      exact absurd kind integer
    · rename_i kind
      exact absurd kind decimal
    · rename_i kind
      exact absurd kind trueWord
    · rename_i kind
      exact absurd kind falseWord
    · rfl

theorem exists_denotes_of_number {token : Token}
    (hkind : token.kind = .integer ∨ token.kind = .decimal)
    (houtside : token.kind = .integer →
      ∀ number : Int64, ¬ IntegerText token.text.toList number.toInt) :
    ∃ value, token.Denotes value := by
  by_cases hnumber : ∃ x, Binary64.NumberText token.text.toList x
  · obtain ⟨x, hx⟩ := hnumber
    exact ⟨float x, .float hkind houtside hx⟩
  · exact ⟨string token.text, .text hkind fun x hx => hnumber ⟨x, hx⟩⟩

/-- Every token denotes a value. -/
theorem exists_denotes (token : Token) : ∃ value, token.Denotes value := by
  cases hkind : token.kind with
  | integer =>
    by_cases hinteger : ∃ number : Int64, IntegerText token.text.toList number.toInt
    · obtain ⟨number, hnumber⟩ := hinteger
      exact ⟨int number, .int hkind hnumber⟩
    · exact exists_denotes_of_number (Or.inl hkind)
        fun _ number hnumber => hinteger ⟨number, hnumber⟩
  | decimal =>
    refine exists_denotes_of_number (Or.inr hkind) fun hinteger => ?_
    rw [hkind] at hinteger
    exact absurd hinteger (by simp)
  | keyword k =>
    by_cases htrue : k = .trueWord
    · exact ⟨bool true, .trueWord (by rw [hkind, htrue])⟩
    · by_cases hfalse : k = .falseWord
      · exact ⟨bool false, .falseWord (by rw [hkind, hfalse])⟩
      · exact ⟨string token.text, .other (by simp [hkind]) (by simp [hkind])
          (by simp [hkind, htrue]) (by simp [hkind, hfalse])⟩
  | _ =>
    exact ⟨string token.text, .other (by simp [hkind]) (by simp [hkind]) (by simp [hkind])
      (by simp [hkind])⟩

/-- Reading a token gives what it denotes, and so a token denotes nothing else. -/
theorem ofToken_eq_iff_denotes {token : Token} {value : Value} :
    ofToken token = value ↔ token.Denotes value := by
  refine ⟨?_, ofToken_of_denotes⟩
  rintro rfl
  obtain ⟨value, hvalue⟩ := exists_denotes token
  rwa [ofToken_of_denotes hvalue]

/-! ### Integers -/

theorem exists_int64_iff {n : Int} :
    (∃ number : Int64, number.toInt = n) ↔ -2 ^ 63 ≤ n ∧ n < 2 ^ 63 := by
  constructor
  · rintro ⟨number, rfl⟩
    exact ⟨number.le_toInt, number.toInt_lt⟩
  · rintro ⟨hlow, hhigh⟩
    exact ⟨Int64.ofInt n, Int64.toInt_ofInt_of_le (by omega) (by omega)⟩

theorem ofToken_eq_int_iff {token : Token} (hkind : token.kind = .integer) :
    (∃ number, ofToken token = int number) ↔
      ∃ n, IntegerText token.text.toList n ∧ -2 ^ 63 ≤ n ∧ n < 2 ^ 63 := by
  constructor
  · rintro ⟨number, hnumber⟩
    cases ofToken_eq_iff_denotes.1 hnumber with
    | int _ integer => exact ⟨number.toInt, integer, exists_int64_iff.1 ⟨number, rfl⟩⟩
  · rintro ⟨n, hinteger, hrange⟩
    obtain ⟨number, rfl⟩ := exists_int64_iff.2 hrange
    exact ⟨number, ofToken_of_denotes (.int hkind hinteger)⟩

theorem integerText_of_isNumeral {digits : List Char} (h : IsNumeral digits) :
    IntegerText digits (digitsValue digits) :=
  .signed .absent h

/-- Digits denote one integer only. -/
theorem eq_of_integerText {digits : List Char} (h : IsNumeral digits) {n : Int}
    (hinteger : IntegerText digits n) : n = digitsValue digits :=
  Option.some.inj ((integer?_eq_some_iff.2 hinteger).symm.trans (integer?_of_isNumeral h))

theorem ofToken_of_small {token : Token} (hkind : token.kind = .integer)
    (h : IsNumeral token.text.toList) (hsmall : digitsValue token.text.toList ≤ 2 ^ 63 - 1) :
    ∃ number : Int64, number.toInt = digitsValue token.text.toList ∧
      ofToken token = int number := by
  obtain ⟨number, hnumber⟩ : ∃ number : Int64, number.toInt = digitsValue token.text.toList :=
    exists_int64_iff.2 ⟨by omega, by omega⟩
  refine ⟨number, hnumber, ofToken_of_denotes (.int hkind ?_)⟩
  rw [hnumber]
  exact integerText_of_isNumeral h

theorem ofToken_of_large {token : Token} (hkind : token.kind = .integer)
    (h : IsNumeral token.text.toList) (hlarge : 2 ^ 63 ≤ digitsValue token.text.toList) :
    ∃ m, Binary64.IsNearest (digitsValue token.text.toList) m ∧
      ofToken token = float (.number false m) := by
  obtain ⟨m, hm, hnumber⟩ := Binary64.exists_numberText .absent (decimalText_of_isNumeral h)
  refine ⟨m, hm, ofToken_of_denotes (.float (Or.inl hkind) (fun _ number hinteger => ?_) hnumber)⟩
  -- the only integer that the digits denote is out of range
  have hvalue := eq_of_integerText h hinteger
  have hbound := number.toInt_lt
  omega

/-! ### Decimals -/

theorem ofToken_of_fraction {token : Token} (hkind : token.kind = .decimal)
    {whole fraction : List Char} (hwhole : IsNumeral whole) (hfraction : IsNumeral fraction)
    (htext : token.text.toList = whole ++ '.' :: fraction) :
    ∃ m, Binary64.IsNearest
        (digitsValue whole + digitsValue fraction / 10 ^ fraction.length) m ∧
      ofToken token = float (.number false m) := by
  obtain ⟨m, hm, hnumber⟩ :=
    Binary64.exists_numberText .absent (decimalText_of_fraction hwhole hfraction)
  refine ⟨m, hm, ofToken_of_denotes (.float (Or.inr hkind) ?_ ?_)⟩
  · intro hinteger
    rw [hkind] at hinteger
    exact absurd hinteger (by simp)
  · rwa [htext]

/-! ### Scanned numbers -/

theorem exists_numberText_of_scannable {token : Token} (h : token.Scannable)
    (hkind : token.kind = .integer ∨ token.kind = .decimal) :
    ∃ x, Binary64.NumberText token.text.toList x := by
  obtain ⟨lexeme, position, hwf, rfl⟩ := h
  cases lexeme with
  | integer digits =>
    obtain ⟨m, -, hm⟩ := Binary64.exists_numberText .absent (decimalText_of_isNumeral hwf)
    exact ⟨_, by simpa [Lexeme.token] using hm⟩
  | decimal whole fraction =>
    obtain ⟨m, -, hm⟩ := Binary64.exists_numberText .absent (decimalText_of_fraction hwf.1 hwf.2)
    exact ⟨_, by simpa [Lexeme.token] using hm⟩
  | word letters =>
    rw [Lexeme.token] at hkind
    split at hkind
    · exact absurd hkind (by simp)
    · exact absurd hkind (by simp)
  | _ => exact absurd hkind (by simp [Lexeme.token])

/-- What the scanner takes for a number is read as one, and as one without a sign. -/
theorem ofToken_of_scannable {token : Token} (h : token.Scannable)
    (hkind : token.kind = .integer ∨ token.kind = .decimal) :
    (∃ number : Int64, 0 ≤ number.toInt ∧ ofToken token = int number) ∨
      ∃ m, ofToken token = float (.number false m) := by
  have hexpressible := expressible_ofToken h
  cases hvalue : ofToken token with
  | int number =>
    rw [hvalue] at hexpressible
    exact Or.inl ⟨number, hexpressible, rfl⟩
  | float x =>
    rw [hvalue] at hexpressible
    obtain ⟨m, rfl⟩ := hexpressible
    exact Or.inr ⟨m, rfl⟩
  | string text =>
    -- the scanner leaves nothing in such a token that denotes no number
    obtain ⟨x, hx⟩ := exists_numberText_of_scannable h hkind
    cases ofToken_eq_iff_denotes.1 hvalue with
    | text _ number => exact absurd hx (number x)
    | other integer decimal => exact absurd hkind (by simp [integer, decimal])
  | bool flag =>
    cases ofToken_eq_iff_denotes.1 hvalue with
    | trueWord kind => exact absurd hkind (by simp [kind])
    | falseWord kind => exact absurd hkind (by simp [kind])

/-- Reading a token is exact.  Digits of any length become the integer they denote if 63 bits hold
    it, and the nearest number otherwise; digits around a dot become the nearest number; and nothing
    that the scanner takes for a number is lost.  A token of any other text is read as what its text
    denotes. -/
theorem ofToken_exact :
    (∀ token : Token, token.kind = .integer → IsNumeral token.text.toList →
      (digitsValue token.text.toList ≤ 2 ^ 63 - 1 → ∃ number : Int64,
        number.toInt = digitsValue token.text.toList ∧ ofToken token = int number) ∧
      (2 ^ 63 ≤ digitsValue token.text.toList → ∃ m,
        Binary64.IsNearest (digitsValue token.text.toList) m ∧
        (m = Binary64.Magnitude.infinite ↔
          (2 : ℚ) ^ 1024 - 2 ^ 970 ≤ digitsValue token.text.toList) ∧
        ofToken token = float (.number false m))) ∧
    (∀ (token : Token) (whole fraction : List Char), token.kind = .decimal → IsNumeral whole →
      IsNumeral fraction → token.text.toList = whole ++ '.' :: fraction →
      ∃ m, Binary64.IsNearest
          (digitsValue whole + digitsValue fraction / 10 ^ fraction.length) m ∧
        ofToken token = float (.number false m)) ∧
    (∀ text tokens, tokenize text = .ok tokens → ∀ token ∈ tokens,
      token.kind = .integer ∨ token.kind = .decimal →
      (∃ number : Int64, 0 ≤ number.toInt ∧ ofToken token = int number) ∨
        ∃ m, ofToken token = float (.number false m)) ∧
    (∀ token : Token, token.kind = .integer →
      ((∃ number, ofToken token = int number) ↔
        ∃ n, IntegerText token.text.toList n ∧ -2 ^ 63 ≤ n ∧ n < 2 ^ 63)) ∧
    (∀ (token : Token) (value : Value), ofToken token = value ↔ token.Denotes value) := by
  refine ⟨?_, ?_, ?_, fun token => ofToken_eq_int_iff, fun token value => ofToken_eq_iff_denotes⟩
  · intro token hkind hnumeral
    refine ⟨ofToken_of_small hkind hnumeral, fun hlarge => ?_⟩
    obtain ⟨m, hm, hvalue⟩ := ofToken_of_large hkind hnumeral hlarge
    exact ⟨m, hm, hm.infinite_iff, hvalue⟩
  · intro token whole fraction hkind hwhole hfraction htext
    exact ofToken_of_fraction hkind hwhole hfraction htext
  · intro text tokens htokens token hmem hkind
    exact ofToken_of_scannable (scannable_of_tokenize htokens token hmem) hkind

theorem ofToken_exact_of_bounds :
    (∃ number : Int64, number.toInt = 42 ∧ ofToken ⟨.integer, "00042", 0⟩ = int number) ∧
    (∃ m, Binary64.IsNearest (2 ^ 63) m ∧
      ofToken ⟨.integer, "9223372036854775808", 0⟩ = float (.number false m)) ∧
    (∃ m, Binary64.IsNearest (5 + 7 / 10 ^ 2) m ∧
      ofToken ⟨.decimal, "05.07", 0⟩ = float (.number false m)) ∧
    (tokenize " 7" = .ok [⟨.integer, "7", 1⟩] ∧
      ((∃ number : Int64, 0 ≤ number.toInt ∧ ofToken ⟨.integer, "7", 1⟩ = int number) ∨
        ∃ m, ofToken ⟨.integer, "7", 1⟩ = float (.number false m))) ∧
    ∃ number, ofToken ⟨.integer, "-9223372036854775808", 0⟩ = int number := by
  obtain ⟨hsmall, hsmallValue⟩ : IsNumeral "00042".toList ∧ digitsValue "00042".toList = 42 :=
    natural?_eq_some_iff.1 (by decide +kernel)
  obtain ⟨hlarge, hlargeValue⟩ : IsNumeral "9223372036854775808".toList ∧
      digitsValue "9223372036854775808".toList = 2 ^ 63 :=
    natural?_eq_some_iff.1 (by decide +kernel)
  obtain ⟨hwhole, hwholeValue⟩ : IsNumeral "05".toList ∧ digitsValue "05".toList = 5 :=
    natural?_eq_some_iff.1 (by decide +kernel)
  obtain ⟨hfraction, hfractionValue⟩ : IsNumeral "07".toList ∧ digitsValue "07".toList = 7 :=
    natural?_eq_some_iff.1 (by decide +kernel)
  have htokens : tokenize " 7" = .ok [⟨.integer, "7", 1⟩] := by decide +kernel
  obtain ⟨hinteger, hdecimal, hscanned, hrange, -⟩ := ofToken_exact
  refine ⟨?_, ?_, ?_, ⟨htokens, ?_⟩, ?_⟩
  · obtain ⟨number, hnumber, hvalue⟩ :=
      (hinteger ⟨.integer, "00042", 0⟩ rfl hsmall).1 (hsmallValue.trans_le (by decide))
    exact ⟨number, hnumber.trans (congrArg Nat.cast hsmallValue), hvalue⟩
  · obtain ⟨m, hm, -, hvalue⟩ :=
      (hinteger ⟨.integer, "9223372036854775808", 0⟩ rfl hlarge).2 hlargeValue.ge
    refine ⟨m, ?_, hvalue⟩
    rwa [hlargeValue, Nat.cast_pow, Nat.cast_ofNat] at hm
  · obtain ⟨m, hm, hvalue⟩ :=
      hdecimal ⟨.decimal, "05.07", 0⟩ "05".toList "07".toList rfl hwhole hfraction rfl
    refine ⟨m, ?_, hvalue⟩
    rwa [hwholeValue, hfractionValue] at hm
  · exact hscanned " 7" _ htokens _ List.mem_cons_self (Or.inl rfl)
  · have hlowest : IntegerText "-9223372036854775808".toList (-2 ^ 63) :=
      integer?_eq_some_iff.1 (by decide +kernel)
    exact (hrange _ rfl).2 ⟨_, hlowest, by decide, by decide⟩

end Value

end StoreCommand
