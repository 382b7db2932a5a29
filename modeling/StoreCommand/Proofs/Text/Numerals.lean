import StoreCommand.Text.Numeral

/-!
# Numerals read back

A numeral has no sign, so it is read as a natural number, and as a signed one of 64 bits if it is
small enough (`int64?_of_isNumeral`).  Writing such a number and reading it again gives the number
back, with either sign (`int64?_integerDigits`).

`IntegerText` says which texts denote which integers, without saying how they are read: a sign or
none, and a numeral behind it.  These and no others are read, with 64 bits only those in range
(`int64?_eq_some_iff`).
-/

namespace StoreCommand

/-- Digits, and at least one. -/
def IsNumeral (digits : List Char) : Prop :=
  digits ≠ [] ∧ ∀ c ∈ digits, c.isDigit = true

theorem isNumeral_naturalDigits (n : Nat) : IsNumeral (naturalDigits n) :=
  ⟨Nat.toDigits_ne_nil, fun _ hc => isDigit_of_mem_naturalDigits hc⟩

theorem isNumeral_append {front back : List Char} (hfront : ∀ c ∈ front, c.isDigit = true)
    (hback : ∀ c ∈ back, c.isDigit = true) (hne : front ++ back ≠ []) :
    IsNumeral (front ++ back) := by
  refine ⟨hne, fun c hc => ?_⟩
  rcases List.mem_append.1 hc with hc | hc
  · exact hfront c hc
  · exact hback c hc

theorem digitsValue_append (front back : List Char) :
    digitsValue (front ++ back) =
      Nat.pow 10 back.length * digitsValue front + digitsValue back := by
  rw [digitsValue, Nat.ofDigitChars_append, Nat.ofDigitChars_eq_ofDigitChars_zero]
  rfl

/-! ### Signed numbers -/

theorem splitSign_of_isDigit {c : Char} (h : c.isDigit = true) (tail : List Char) :
    splitSign (c :: tail) = (false, c :: tail) := by
  unfold splitSign
  -- a digit is neither sign
  split
  · rename_i heq
    rw [(List.cons.inj heq).1] at h
    exact absurd h (by decide)
  · rename_i heq
    rw [(List.cons.inj heq).1] at h
    exact absurd h (by decide)
  · rfl

theorem natural?_of_isNumeral {digits : List Char} (h : IsNumeral digits) :
    natural? digits = some (digitsValue digits) := by
  rw [natural?, if_pos ⟨h.1, List.all_eq_true.2 h.2⟩]

theorem integer?_of_isNumeral {digits : List Char} (h : IsNumeral digits) :
    integer? digits = some (digitsValue digits : Int) := by
  cases digits with
  | nil => exact absurd rfl h.1
  | cons c tail =>
    have hsign := splitSign_of_isDigit (h.2 c List.mem_cons_self) tail
    rw [integer?, hsign, natural?_of_isNumeral h]
    rfl

theorem mem_integerDigits {n : Int} {c : Char} (h : c ∈ integerDigits n) :
    isWordChar c = true ∨ c = '-' := by
  unfold integerDigits at h
  split at h
  · rcases List.mem_cons.1 h with rfl | h
    · exact Or.inr rfl
    · exact Or.inl (isWordChar_of_isDigit (isDigit_of_mem_naturalDigits h))
  · exact Or.inl (isWordChar_of_isDigit (isDigit_of_mem_naturalDigits h))

theorem integer?_integerDigits (n : Int) : integer? (integerDigits n) = some n := by
  unfold integerDigits
  by_cases hneg : n < 0
  · have hsize : -(n.natAbs : Int) = n := by omega
    rw [if_pos hneg, integer?, splitSign, natural?_naturalDigits]
    exact congrArg some hsize
  · have hsize : (n.natAbs : Int) = n := by omega
    rw [if_neg hneg, integer?_of_isNumeral (isNumeral_naturalDigits _), digitsValue_naturalDigits]
    exact congrArg some hsize

theorem int64?_of_isNumeral {digits : List Char} (h : IsNumeral digits) {number : Int64}
    (hnumber : int64? digits = some number) : number.toInt = digitsValue digits := by
  rw [int64?, integer?_of_isNumeral h, Option.bind_some] at hnumber
  split at hnumber
  · rename_i hrange
    obtain rfl := Option.some.inj hnumber
    rw [Int64.toInt_maxValue] at hrange
    exact Int64.toInt_ofInt_of_le (by omega) (by omega)
  · exact absurd hnumber (by simp)

/-- Every signed number of 64 bits is read as it is written. -/
theorem int64?_integerDigits (number : Int64) :
    int64? (integerDigits number.toInt) = some number := by
  rw [int64?, integer?_integerDigits, Option.bind_some,
    if_pos ⟨number.minValue_le_toInt, number.toInt_le⟩, Int64.ofInt_toInt]

/-! ### The texts of integers -/

/-- What may stand in front of a number, and whether it makes the number negative. -/
inductive SignText : List Char → Bool → Prop where
  | absent : SignText [] false
  | plus : SignText ['+'] false
  | minus : SignText ['-'] true

inductive IntegerText : List Char → Int → Prop where
  | signed {sign digits : List Char} {negative : Bool} (signText : SignText sign negative)
      (numeral : IsNumeral digits) :
      IntegerText (sign ++ digits) (if negative then -(digitsValue digits : Int)
        else digitsValue digits)

theorem mem_integerText {text : List Char} {n : Int} (h : IntegerText text n) :
    ∀ c ∈ text, c.isDigit = true ∨ c = '+' ∨ c = '-' := by
  cases h with
  | signed signText numeral =>
    intro c hc
    rcases List.mem_append.1 hc with hc | hc
    · cases signText with
      | absent => exact absurd hc (by simp)
      | plus => exact Or.inr (Or.inl (List.mem_singleton.1 hc))
      | minus => exact Or.inr (Or.inr (List.mem_singleton.1 hc))
    · exact Or.inl (numeral.2 c hc)

theorem exists_signText (text : List Char) :
    ∃ sign, text = sign ++ (splitSign text).2 ∧ SignText sign (splitSign text).1 := by
  unfold splitSign
  split
  · exact ⟨['-'], rfl, .minus⟩
  · exact ⟨['+'], rfl, .plus⟩
  · exact ⟨[], rfl, .absent⟩

theorem splitSign_append {sign rest : List Char} {negative : Bool} (h : SignText sign negative)
    (hrest : ∀ c ∈ rest.head?, c ≠ '-' ∧ c ≠ '+') :
    splitSign (sign ++ rest) = (negative, rest) := by
  cases h with
  | absent =>
    -- only a missing sign could be taken from what follows it
    rw [List.nil_append]
    unfold splitSign
    split
    · exact absurd rfl (hrest '-' rfl).1
    · exact absurd rfl (hrest '+' rfl).2
    · rfl
  | plus => rfl
  | minus => rfl

theorem natural?_eq_some_iff {text : List Char} {n : Nat} :
    natural? text = some n ↔ IsNumeral text ∧ digitsValue text = n := by
  constructor
  · intro h
    unfold natural? at h
    split at h
    · rename_i hnumeral
      exact ⟨⟨hnumeral.1, List.all_eq_true.1 hnumeral.2⟩, Option.some.inj h⟩
    · exact absurd h (by simp)
  · rintro ⟨hnumeral, rfl⟩
    exact natural?_of_isNumeral hnumeral

theorem ne_sign_of_isNumeral {digits : List Char} (h : IsNumeral digits) :
    ∀ c ∈ digits.head?, c ≠ '-' ∧ c ≠ '+' := by
  intro c hc
  have hdigit := h.2 c (List.mem_of_mem_head? hc)
  constructor
  · rintro rfl
    exact absurd hdigit (by decide)
  · rintro rfl
    exact absurd hdigit (by decide)

theorem integer?_eq_some_iff {text : List Char} {n : Int} :
    integer? text = some n ↔ IntegerText text n := by
  constructor
  · intro h
    unfold integer? at h
    cases hsize : natural? (splitSign text).2 with
    | none => exact absurd h (by simp [hsize])
    | some size =>
      rw [hsize] at h
      obtain rfl := Option.some.inj h
      obtain ⟨hnumeral, rfl⟩ := natural?_eq_some_iff.1 hsize
      obtain ⟨sign, htext, hsign⟩ := exists_signText text
      have hwhole := IntegerText.signed hsign hnumeral
      rwa [← htext] at hwhole
  · rintro ⟨hsign, hnumeral⟩
    rw [integer?, splitSign_append hsign (ne_sign_of_isNumeral hnumeral),
      natural?_of_isNumeral hnumeral]
    rfl

/-- The signed numerals in range are read, as what they denote, and nothing else is. -/
theorem int64?_eq_some_iff {text : List Char} {number : Int64} :
    int64? text = some number ↔ IntegerText text number.toInt := by
  constructor
  · intro h
    obtain ⟨n, hn, hnumber⟩ := Option.bind_eq_some_iff.1 h
    split at hnumber
    · rename_i hrange
      obtain rfl := Option.some.inj hnumber
      rw [Int64.toInt_maxValue, Int64.toInt_minValue] at hrange
      rw [Int64.toInt_ofInt_of_le (by omega) (by omega)]
      exact integer?_eq_some_iff.1 hn
    · exact absurd hnumber (by simp)
  · intro h
    rw [int64?, integer?_eq_some_iff.2 h, Option.bind_some,
      if_pos ⟨number.minValue_le_toInt, number.toInt_le⟩, Int64.ofInt_toInt]

/-- The range has one negative number more. -/
example : int64? "-9223372036854775808".toList = some Int64.minValue ∧
    int64? "9223372036854775808".toList = none := by decide

theorem int64?_eq_none_iff {text : List Char} :
    int64? text = none ↔ ∀ number : Int64, ¬ IntegerText text number.toInt := by
  rw [Option.eq_none_iff_forall_ne_some]
  exact forall_congr' fun number => not_congr int64?_eq_some_iff

end StoreCommand
