import StoreCommand.Proofs.Binary64.ReadBack
import StoreCommand.Proofs.Text.Pieces

/-!
# The text of a value

Different values have different texts (`literal_inj`), also the values that are not read back: a
negative number, which the scanner refuses, still has a text of its own.

A string is seen by its quote.  Everything else is written with word characters, dots and minus
signs and is read back by `ofBareLiteral?`, as a number if it is one and as one of three words
otherwise: the two truth values and the infinity that has a sign.  That integers and numbers do not
meet is due to the dot, which a number always has and an integer never.
-/

namespace StoreCommand

namespace Value

/-! ### Bare texts -/

/-- The value with this text between no quotes. -/
def ofBareLiteral? (text : List Char) : Option Value :=
  match int64? text, Binary64.ofText? text with
  | some number, _ => some (int number)
  | none, some x => some (float x)
  | none, none =>
    if text = "true".toList then some (bool true)
    else if text = "false".toList then some (bool false)
    else if text = "-inf.0".toList then some (float (.number true Binary64.Magnitude.infinite))
    else none

theorem int64?_of_dot {text : List Char} (h : '.' ∈ text) : int64? text = none := by
  rw [int64?_eq_none_iff]
  intro number hnumber
  exact absurd (mem_integerText hnumber '.' h) (by decide)

theorem ofBareLiteral?_float {x : Binary64} (hnan : x ≠ .nan) :
    ofBareLiteral? x.literal = some (float x) := by
  by_cases hlowest : x = .number true Binary64.Magnitude.infinite
  · -- the one number whose text is not read as a number
    rw [hlowest]
    decide +kernel
  · rw [ofBareLiteral?, int64?_of_dot x.mem_literal.1, Binary64.ofText?_literal hnan hlowest]

theorem ofBareLiteral?_literal {value : Value} (hstring : ∀ text, value ≠ string text)
    (hnan : value ≠ float .nan) : ofBareLiteral? value.literal.toList = some value := by
  cases value with
  | string text => exact absurd rfl (hstring text)
  | int number => rw [literal, String.toList_ofList, ofBareLiteral?, int64?_integerDigits]
  | float x =>
    rw [literal, String.toList_ofList]
    exact ofBareLiteral?_float fun hx => hnan (congrArg float hx)
  | bool flag => cases flag <;> decide +kernel

theorem mem_bareLiteral {value : Value} (h : ∀ text, value ≠ string text) :
    ∀ c ∈ value.literal.toList, isWordChar c = true ∨ c = '.' ∨ c = '-' := by
  cases value with
  | string text => exact absurd rfl (h text)
  | int number =>
    rw [literal, String.toList_ofList]
    exact fun c hc => (mem_integerDigits hc).imp_right Or.inr
  | float x =>
    rw [literal, String.toList_ofList]
    exact x.mem_literal.2
  | bool flag => cases flag <;> simp [literal, isWordChar]

/-- No quote and no space occurs in the text of a value that is no string. -/
theorem not_quote_of_mem_bareLiteral {value : Value} (h : ∀ text, value ≠ string text) :
    ∀ c ∈ value.literal.toList, isQuote c = false ∧ c ≠ ' ' := by
  intro c hc
  rcases mem_bareLiteral h c hc with hword | rfl | rfl
  · exact not_quote_of_isWordChar hword
  · decide
  · decide

/-! ### All texts -/

theorem literal_ne_empty (value : Value) : value.literal.toList ≠ [] := by
  cases value with
  | string text => simp [literal, quoted]
  | int number =>
    -- no text would be read as no number
    intro hnil
    have hread := int64?_integerDigits number
    have hempty : int64? [] = none := by decide
    rw [literal, String.toList_ofList] at hnil
    rw [hnil, hempty] at hread
    exact absurd hread (by simp)
  | float x =>
    rw [literal, String.toList_ofList]
    exact List.ne_nil_of_mem x.mem_literal.1
  | bool flag => cases flag <;> simp [literal]

theorem delimited_literal {value : Value}
    (h : ∀ text, value = string text → hasBothQuotes text.toList = false) :
    Delimited value.literal.toList := by
  cases value with
  | string text => exact delimited_quoted (h text rfl)
  | _ => exact .of_forall (literal_ne_empty _) (not_quote_of_mem_bareLiteral (by simp))

theorem literal_string_ne {text : String} {value : Value} (h : ∀ other, value ≠ string other) :
    (string text).literal ≠ value.literal := by
  intro heq
  have hmem : quoteFor text.toList ∈ value.literal.toList := by
    rw [← heq]
    simp [literal, quoted]
  have hquote := Lexeme.isQuote_quoteFor text.toList
  rw [(not_quote_of_mem_bareLiteral h _ hmem).1] at hquote
  exact absurd hquote (by decide)

/-- The text of a value determines the value. -/
theorem literal_inj {value other : Value} (hnan : value ≠ float .nan) (hother : other ≠ float .nan)
    (h : value.literal = other.literal) : value = other := by
  by_cases hstring : ∃ text, value = string text
  · -- a string is told from everything else by its quote
    obtain ⟨text, rfl⟩ := hstring
    cases other with
    | string more => exact congrArg string (quoted_injective h)
    | _ => exact absurd h (literal_string_ne (by simp))
  · have hbare : ∀ text, value ≠ string text := fun text heq => hstring ⟨text, heq⟩
    cases other with
    | string more => exact absurd h.symm (literal_string_ne hbare)
    | _ =>
      have hread := ofBareLiteral?_literal hbare hnan
      rw [h, ofBareLiteral?_literal (by simp) hother] at hread
      exact (Option.some.inj hread).symm

end Value

end StoreCommand
