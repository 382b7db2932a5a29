import StoreCommand.Proofs.Binary64.Rounding
import StoreCommand.Proofs.Lexeme.Longest
import StoreCommand.Proofs.Text.Letters
import StoreCommand.Proofs.Text.Numerals
import StoreCommand.Statement.Canonical

/-!
# Numbers read back

The text of a number in a command is found by a search: the coarsest grid with a decimal that reads
back wins.  Whatever grid that is, its decimal reads back, for on the finest grid the value itself
lies (`nearest_coarsest`).  Writing it positionally moves the dot and adds zeros, which keeps the
ratio of digits to powers of ten, and reading looks at nothing else.

So the text of a number without a sign is one decimal (`isDecimalOf_literal`) and denotes that
number again (`exists_literal`).  With a sign in front it denotes the negative number; only negative
infinity has a text that denotes none (`ofText?_literal`).
-/

namespace StoreCommand

/-! ### Runs of digits with zeros in front -/

namespace Binary64

theorem isNumeral_padded {width : Nat} (n : Nat) : IsNumeral (padded width (naturalDigits n)) := by
  constructor
  · intro hnil
    exact (isNumeral_naturalDigits n).1 (List.append_eq_nil_iff.1 hnil).2
  · intro c hc
    rcases List.mem_append.1 hc with hzero | hdigit
    · rw [List.eq_of_mem_replicate hzero]
      decide
    · exact (isNumeral_naturalDigits n).2 c hdigit

theorem length_padded {width n : Nat} (hwidth : 0 < width) (h : n < Nat.pow 10 width) :
    (padded width (naturalDigits n)).length = width := by
  have hle : (naturalDigits n).length ≤ width :=
    (Nat.length_toDigits_le_iff (by decide) hwidth).2 h
  rw [padded, List.length_append, List.length_replicate]
  omega

theorem digitsValue_padded (width n : Nat) : digitsValue (padded width (naturalDigits n)) = n := by
  rw [padded, digitsValue, Nat.ofDigitChars_append, Nat.ofDigitChars_replicate_zero, Nat.mul_zero]
  exact digitsValue_naturalDigits n

end Binary64

/-! ### Reading decimals -/

namespace Decimal

theorem lt_pow_of_log2 {coefficient exponent places unit : Nat} (hunit : 0 < unit)
    (hlimit : 4 * unit ≤ Nat.pow 10 places) (h : coefficient.log2 + places ≤ exponent) :
    2 * (coefficient * unit) < Nat.pow 10 exponent := by
  have hcoefficient : coefficient < 2 * Nat.pow 2 coefficient.log2 := by
    have hsucc : 2 * Nat.pow 2 coefficient.log2 = Nat.pow 2 (coefficient.log2 + 1) :=
      Nat.pow_succ'.symm
    rw [hsucc]
    exact Nat.lt_log2_self
  have hbase : Nat.pow 2 coefficient.log2 ≤ Nat.pow 10 coefficient.log2 :=
    Nat.pow_le_pow_left (by decide) _
  calc 2 * (coefficient * unit)
      = coefficient * (2 * unit) := Nat.mul_left_comm _ _ _
    _ < 2 * Nat.pow 2 coefficient.log2 * (2 * unit) :=
        Nat.mul_lt_mul_of_pos_right hcoefficient (Nat.mul_pos (by decide) hunit)
    _ = Nat.pow 2 coefficient.log2 * (4 * unit) := by ring
    _ ≤ Nat.pow 10 coefficient.log2 * Nat.pow 10 places := Nat.mul_le_mul hbase hlimit
    _ = Nat.pow 10 (coefficient.log2 + places) := (Nat.pow_add 10 _ _).symm
    _ ≤ Nat.pow 10 exponent := Nat.pow_le_pow_right (by decide) h

theorem tiny_lt {coefficient exponent : Nat} (h : coefficient.log2 + 401 ≤ exponent) :
    2 * (coefficient * Nat.pow 2 Binary64.unitExponent) < Nat.pow 10 exponent := by
  have hpos : ∀ n : Nat, 0 < Nat.pow 2 n := fun _ => Nat.pow_pos Nat.two_pos
  exact lt_pow_of_log2 (hpos _) (by decide +kernel) h

/-- Digits behind the dot divide by a power of ten, however many they are. -/
theorem nearest_neg (coefficient places : Nat) :
    (⟨coefficient, -(places : Int)⟩ : Decimal).nearest =
      Binary64.nearest coefficient (Nat.pow 10 places) := by
  cases places with
  | zero =>
    have hzero : (⟨coefficient, -((0 : Nat) : Int)⟩ : Decimal).nearest =
        Binary64.nearest (coefficient * 1) 1 := rfl
    rw [hzero, Nat.mul_one]
  | succ n =>
    have hsucc : (⟨coefficient, -((n + 1 : Nat) : Int)⟩ : Decimal).nearest =
        Binary64.nearest coefficient (Nat.pow 10 (min (n + 1) (coefficient.log2 + 401))) := rfl
    rw [hsucc]
    by_cases hplaces : n + 1 ≤ coefficient.log2 + 401
    · rw [Nat.min_eq_left hplaces]
    · -- the exponent is cut down only where the number is zero with either exponent
      rw [Nat.min_eq_right (by omega), Binary64.nearest_of_lt (tiny_lt (Nat.le_refl _)),
        Binary64.nearest_of_lt (tiny_lt (by omega))]

/-- A text is cut where its digits end, if no dot follows them. -/
theorem ofText?_whole {digits rest : List Char} (hdigits : ∀ c ∈ digits, c.isDigit = true)
    (hrest : ∀ c ∈ rest.head?, c.isDigit = false ∧ c ≠ '.') :
    ofText? (digits ++ rest) = ofParts? digits [] rest := by
  have hstop : ∀ c ∈ rest.head?, c.isDigit = false := fun c hc => (hrest c hc).1
  unfold ofText?
  rw [dropWhile_run hdigits hstop, takeWhile_run hdigits hstop]
  split
  · exact absurd rfl (hrest '.' rfl).2
  · rfl

theorem ofText?_pointed {whole fraction rest : List Char} (hwhole : ∀ c ∈ whole, c.isDigit = true)
    (hfraction : ∀ c ∈ fraction, c.isDigit = true) (hrest : ∀ c ∈ rest.head?, c.isDigit = false) :
    ofText? (whole ++ '.' :: (fraction ++ rest)) = ofParts? whole fraction rest := by
  have hdot : ∀ c ∈ ('.' :: (fraction ++ rest)).head?, c.isDigit = false := by
    intro c hc
    obtain rfl : '.' = c := by simpa using hc
    decide
  unfold ofText?
  rw [dropWhile_run hwhole hdot, takeWhile_run hwhole hdot]
  simp only [takeWhile_run hfraction hrest, dropWhile_run hfraction hrest]

theorem ofText?_integer {digits : List Char} (h : IsNumeral digits) :
    ofText? digits = some ⟨digitsValue digits, -((0 : Nat) : Int)⟩ := by
  have hstop : ∀ c ∈ ([] : List Char).head?, c.isDigit = false ∧ c ≠ '.' := by simp
  have hparts := ofText?_whole h.2 hstop
  rw [List.append_nil] at hparts
  rw [hparts]
  simp [ofParts?, exponent?, h.1]

theorem ofText?_decimal {whole fraction : List Char} (hwhole : IsNumeral whole)
    (hfraction : IsNumeral fraction) :
    ofText? (whole ++ '.' :: fraction) =
      some ⟨digitsValue (whole ++ fraction), -(fraction.length : Int)⟩ := by
  have hstop : ∀ c ∈ ([] : List Char).head?, c.isDigit = false := by simp
  have hparts := ofText?_pointed hwhole.2 hfraction.2 hstop
  rw [List.append_nil] at hparts
  rw [hparts]
  simp [ofParts?, exponent?, hwhole.1]

end Decimal

namespace Binary64

/-- A text is read as a decimal if a digit or a dot follows its sign. -/
theorem ofText?_of_splitSign {text rest : List Char} {negative : Bool} {c : Char}
    (hsign : splitSign text = (negative, c :: rest)) (h : c.isDigit = true ∨ c = '.') :
    ofText? text =
      (Decimal.ofText? (c :: rest)).map fun d => number negative d.nearest := by
  have hlower : c.toLower = c := by
    rcases h with hdigit | rfl
    · exact toLower_of_isDigit hdigit
    · decide
  have hword : ∀ first letters, first.isAlpha = true → lowered (c :: rest) ≠ first :: letters := by
    intro first letters hfirst heq
    rw [lowered, List.map_cons, hlower] at heq
    rw [← (List.cons.inj heq).1] at hfirst
    rcases h with hdigit | rfl
    · exact absurd hfirst (by simp [isAlpha_of_isDigit hdigit])
    · exact absurd hfirst (by decide)
  have hinf : ¬ (lowered (c :: rest) = "inf".toList ∨ lowered (c :: rest) = "infinity".toList) := by
    rintro (heq | heq)
    · exact hword 'i' "nf".toList (by decide) (heq.trans (by simp))
    · exact hword 'i' "nfinity".toList (by decide) (heq.trans (by simp))
  have hnan : lowered (c :: rest) ≠ "nan".toList := by
    intro heq
    exact hword 'n' "an".toList (by decide) (heq.trans (by simp))
  unfold ofText?
  rw [hsign]
  simp only
  rw [if_neg hinf, if_neg hnan]

theorem ofText?_of_isDigit {c : Char} (h : c.isDigit = true) (tail : List Char) :
    ofText? (c :: tail) = (Decimal.ofText? (c :: tail)).map fun d => number false d.nearest :=
  ofText?_of_splitSign (splitSign_of_isDigit h tail) (Or.inl h)

theorem ofText?_integer {digits : List Char} (h : IsNumeral digits) :
    ofText? digits = some (number false (nearest (digitsValue digits) 1)) := by
  cases digits with
  | nil => exact absurd rfl h.1
  | cons c tail =>
    rw [ofText?_of_isDigit (h.2 c List.mem_cons_self), Decimal.ofText?_integer h, Option.map_some,
      Decimal.nearest_neg]

theorem ofText?_decimal {whole fraction : List Char} (hwhole : IsNumeral whole)
    (hfraction : IsNumeral fraction) :
    ofText? (whole ++ '.' :: fraction) = some (number false
      (nearest (digitsValue (whole ++ fraction)) (Nat.pow 10 fraction.length))) := by
  cases whole with
  | nil => exact absurd rfl hwhole.1
  | cons c tail =>
    rw [List.cons_append, ofText?_of_isDigit (hwhole.2 c List.mem_cons_self), ← List.cons_append,
      Decimal.ofText?_decimal hwhole hfraction, Option.map_some, Decimal.nearest_neg]

/-! ### Infinity -/

/-- The power of ten that stands for infinity is too large for a finite number. -/
theorem nearest_huge : nearest (Nat.pow 10 309) 1 = Magnitude.infinite := by
  decide +kernel

theorem naturalDigits_huge : naturalDigits (Nat.pow 10 309) = '1' :: List.replicate 309 '0' := by
  decide +kernel

/-! ### The search for the shortest decimal -/

section Search

theorem readsBack_iff {m : Magnitude} {decimal : Nat} :
    readsBack m decimal = true ↔ nearest decimal (Nat.pow 10 unitExponent) = m :=
  decide_eq_true_iff

-- comparing two roundings by evaluation would form powers of a thousand digits
attribute [local irreducible] readsBack nearest unitExponent

theorem neighbour?_eq_some {low digits : Nat} {lowReads highReads lowIsNearer : Bool}
    (h : neighbour? low lowReads highReads lowIsNearer = some digits) :
    (lowReads = true ∧ digits = low) ∨ (highReads = true ∧ digits = low + 1) := by
  unfold neighbour? at h
  split at h
  · have hdigits := Option.some.inj h
    by_cases hnearer : lowIsNearer = true
    · rw [if_pos hnearer] at hdigits
      exact Or.inl ⟨rfl, hdigits.symm⟩
    · rw [if_neg hnearer] at hdigits
      exact Or.inr ⟨rfl, hdigits.symm⟩
  · exact Or.inl ⟨rfl, (Option.some.inj h).symm⟩
  · exact Or.inr ⟨rfl, (Option.some.inj h).symm⟩
  · exact absurd h (by simp)

theorem readsBack_onGrid {m : Magnitude} {grid digits : Nat} (h : onGrid? m grid = some digits) :
    readsBack m (digits * Nat.pow 10 grid) = true := by
  unfold onGrid? at h
  rcases neighbour?_eq_some h with ⟨hreads, rfl⟩ | ⟨hreads, rfl⟩
  · exact hreads
  · exact hreads

/-- Wherever the search stops, its decimal reads back. -/
theorem nearest_coarsest (m : Magnitude) (grid : Nat) :
    nearest ((coarsest m grid).1 * Nat.pow 10 (coarsest m grid).2) (Nat.pow 10 unitExponent) =
      m := by
  induction grid with
  | zero =>
    -- the finest grid has the value itself
    refine nearest_of_eq m (Nat.pow_pos (by decide)) ?_
    have hpow : ∀ n : Nat, Nat.pow 10 n = Nat.pow 5 n * Nat.pow 2 n := fun n => Nat.mul_pow 5 2 n
    have hone : Nat.pow 10 0 = 1 := rfl
    rw [coarsest, Magnitude.places, hpow unitExponent, hone, Nat.mul_one, Nat.mul_assoc]
  | succ grid ih =>
    rw [coarsest]
    cases hgrid : onGrid? m (grid + 1) with
    | none => exact ih  -- the search goes on with a finer grid
    | some digits => exact readsBack_iff.1 (readsBack_onGrid hgrid)

theorem nearest_shortest (m : Magnitude) :
    nearest ((shortest m).1 * Nat.pow 10 (shortest m).2) (Nat.pow 10 unitExponent) = m :=
  nearest_coarsest m _

/-! ### The text of a number -/

/-- `text` is a decimal with a dot, and denotes the magnitude `m`. -/
def IsDecimalOf (m : Magnitude) (text : List Char) : Prop :=
  ∃ whole fraction, text = whole ++ '.' :: fraction ∧ IsNumeral whole ∧ IsNumeral fraction ∧
    nearest (digitsValue (whole ++ fraction)) (Nat.pow 10 fraction.length) = m

theorem dot_notMem_naturalDigits (n : Nat) : '.' ∉ naturalDigits n := by
  intro hmem
  exact absurd (isDigit_of_mem_naturalDigits hmem) (by decide)

theorem isDecimalOf_whole {m : Magnitude} {n : Nat} (h : nearest n 1 = m) :
    IsDecimalOf m (naturalDigits n ++ ".0".toList) := by
  have hzero : IsNumeral ['0'] := ⟨by simp, by simp⟩
  refine ⟨naturalDigits n, ['0'], rfl, isNumeral_naturalDigits n, hzero, ?_⟩
  have hvalue : digitsValue (naturalDigits n ++ ['0']) = 10 * n := by
    rw [digitsValue_append, digitsValue_naturalDigits]
    rfl
  have hpow : Nat.pow 10 ['0'].length = 10 * 1 := rfl
  rw [hvalue, hpow, nearest_mul_mul (by decide), h]

theorem isDecimalOf_positional {m : Magnitude} {digits count : Nat} (hcount : 0 < count)
    (h : nearest digits (Nat.pow 10 count) = m) :
    ('.' ∈ positional digits count ∧ IsDecimalOf m (positional digits count)) ∨
      ('.' ∉ positional digits count ∧ IsDecimalOf m (positional digits count ++ ".0".toList)) := by
  have hpos : 0 < Nat.pow 10 count := Nat.pow_pos (by decide)
  have hsplit : Nat.pow 10 count * (digits / Nat.pow 10 count) + digits % Nat.pow 10 count =
      digits := Nat.div_add_mod _ _
  unfold positional
  simp only
  by_cases hzero : digits % Nat.pow 10 count = 0
  · -- a fraction of zero is left out, and the literal adds one digit of it again
    rw [if_pos hzero]
    refine Or.inr ⟨dot_notMem_naturalDigits _, isDecimalOf_whole ?_⟩
    rw [hzero, Nat.add_zero] at hsplit
    rw [← nearest_mul_mul hpos, hsplit, Nat.mul_one, h]
  · -- zeros in front of the fraction bring it to the length that its place needs
    rw [if_neg hzero]
    refine Or.inl ⟨by simp, ?_⟩
    have hlength := length_padded hcount (Nat.mod_lt digits hpos)
    refine ⟨_, _, rfl, isNumeral_naturalDigits _, isNumeral_padded _, ?_⟩
    rw [digitsValue_append, digitsValue_padded, digitsValue_naturalDigits, hlength, hsplit, h]

theorem isDecimalOf_gridText {m : Magnitude} {digits grid : Nat}
    (h : nearest (digits * Nat.pow 10 grid) (Nat.pow 10 unitExponent) = m) :
    ('.' ∈ gridText digits grid ∧ IsDecimalOf m (gridText digits grid)) ∨
      ('.' ∉ gridText digits grid ∧ IsDecimalOf m (gridText digits grid ++ ".0".toList)) := by
  have hpos : ∀ n : Nat, 0 < Nat.pow 10 n := fun _ => Nat.pow_pos (by decide)
  have hadd : ∀ a b : Nat, Nat.pow 10 (a + b) = Nat.pow 10 a * Nat.pow 10 b := Nat.pow_add 10
  unfold gridText
  by_cases hgrid : unitExponent ≤ grid
  · -- a grid of whole numbers: nothing stands behind the dot
    rw [if_pos hgrid]
    refine Or.inr ⟨dot_notMem_naturalDigits _, isDecimalOf_whole ?_⟩
    have hpow : digits * Nat.pow 10 grid =
        Nat.pow 10 unitExponent * (digits * Nat.pow 10 (grid - unitExponent)) := by
      rw [Nat.mul_left_comm, ← hadd, Nat.add_sub_cancel' hgrid]
    rw [← nearest_mul_mul (hpos unitExponent), ← hpow, Nat.mul_one]
    exact h
  · rw [if_neg hgrid]
    refine isDecimalOf_positional (by omega) ?_
    have hpow : Nat.pow 10 unitExponent = Nat.pow 10 grid * Nat.pow 10 (unitExponent - grid) := by
      rw [← hadd, Nat.add_sub_cancel' (by omega)]
    rwa [hpow, Nat.mul_comm digits, nearest_mul_mul (hpos grid)] at h

theorem isDecimalOf_text (m : Magnitude) :
    ('.' ∈ m.text ∧ IsDecimalOf m m.text) ∨
      ('.' ∉ m.text ∧ IsDecimalOf m (m.text ++ ".0".toList)) :=
  isDecimalOf_gridText (nearest_shortest m)

theorem isDecimalOf_literal (m : Magnitude) : IsDecimalOf m (literal (number false m)) := by
  by_cases hinfinite : m = Magnitude.infinite
  · -- infinity has no digits of its own, but a number that is read as infinity has
    rw [literal, if_pos (by rw [hinfinite]), ← naturalDigits_huge, hinfinite]
    exact isDecimalOf_whole nearest_huge
  · have htext : (number false m).text = m.text := by
      rw [text, if_neg hinfinite, if_neg Bool.false_ne_true, List.nil_append]
    rw [literal, if_neg (fun h => hinfinite (number.inj h).2), htext]
    rcases isDecimalOf_text m with ⟨hdot, hdecimal⟩ | ⟨hdot, hdecimal⟩
    · rwa [if_pos hdot]
    · rwa [if_neg hdot]

/-- A number without a sign is written so that it is read back. -/
theorem exists_literal (m : Magnitude) :
    ∃ whole fraction, literal (number false m) = whole ++ '.' :: fraction ∧ IsNumeral whole ∧
      IsNumeral fraction ∧ ofText? (whole ++ '.' :: fraction) = some (number false m) := by
  rcases isDecimalOf_literal m with ⟨whole, fraction, htext, hwhole, hfraction, hnearest⟩
  refine ⟨whole, fraction, htext, hwhole, hfraction, ?_⟩
  rw [ofText?_decimal hwhole hfraction, hnearest]

/-- Two to the power -25 is equally near to two decimals of 17 digits; the upper one is written. -/
example : literal (number false (nearest 1 0x2000000)) = "0.000000029802322387695313".toList := by
  decide +kernel

end Search

/-! ### Signs -/

/-- A minus sign in front of a number makes it negative. -/
theorem ofText?_minus {c : Char} {tail : List Char} {m : Magnitude} (h : c.isDigit = true)
    (hread : ofText? (c :: tail) = some (number false m)) :
    ofText? ('-' :: c :: tail) = some (number true m) := by
  have hsign : splitSign ('-' :: c :: tail) = (true, c :: tail) := rfl
  rw [ofText?_of_isDigit h] at hread
  obtain ⟨d, hd, hm⟩ := Option.map_eq_some_iff.1 hread
  rw [ofText?_of_splitSign hsign (Or.inl h), hd, Option.map_some, (number.inj hm).2]

/-- The text of a negative number is that of its magnitude behind a sign, but infinity has digits
    only without one. -/
theorem literal_negative (m : Magnitude) :
    literal (number true m) =
      '-' :: if m = Magnitude.infinite then "inf.0".toList else literal (number false m) := by
  have hsign : number true m ≠ number false Magnitude.infinite :=
    fun h => absurd (number.inj h).1 (by decide)
  by_cases hinfinite : m = Magnitude.infinite
  · rw [if_pos hinfinite, hinfinite]
    decide +kernel
  · have hfalse : number false m ≠ number false Magnitude.infinite :=
      fun h => hinfinite (number.inj h).2
    have htext : (number true m).text = '-' :: (number false m).text := by
      simp [text]
    rw [if_neg hinfinite, literal, if_neg hsign, literal, if_neg hfalse, htext]
    by_cases hdot : '.' ∈ (number false m).text
    · rw [if_pos hdot, if_pos (List.mem_cons_of_mem '-' hdot)]
    · rw [if_neg hdot, if_neg (by simpa using hdot), List.cons_append]

/-- Infinity with a sign in front is written as a word, and every other number is written so that it
    is read back. -/
theorem ofText?_literal {x : Binary64} (hnan : x ≠ nan)
    (hlowest : x ≠ number true Magnitude.infinite) : ofText? x.literal = some x := by
  cases x with
  | nan => exact absurd rfl hnan
  | number negative m =>
    rcases exists_literal m with ⟨whole, fraction, htext, hwhole, -, hread⟩
    cases negative with
    | false => rw [htext, hread]
    | true =>
      -- only a finite magnitude keeps its digits behind a minus sign
      have hfinite : m ≠ Magnitude.infinite := by
        rintro rfl
        exact hlowest rfl
      rw [literal_negative, if_neg hfinite, htext]
      cases whole with
      | nil => exact absurd rfl hwhole.1
      | cons c tail => exact ofText?_minus (hwhole.2 c List.mem_cons_self) hread

/-- A number is written with word characters, dots and minus signs, and there is always a dot. -/
theorem mem_literal (x : Binary64) :
    '.' ∈ x.literal ∧ ∀ c ∈ x.literal, isWordChar c = true ∨ c = '.' ∨ c = '-' := by
  have hunsigned : ∀ m, '.' ∈ literal (number false m) ∧
      ∀ c ∈ literal (number false m), isWordChar c = true ∨ c = '.' ∨ c = '-' := by
    intro m
    rcases exists_literal m with ⟨whole, fraction, htext, hwhole, hfraction, -⟩
    rw [htext]
    refine ⟨by simp, fun c hc => ?_⟩
    rcases List.mem_append.1 hc with hc | hc
    · exact Or.inl (isWordChar_of_isDigit (hwhole.2 c hc))
    · rcases List.mem_cons.1 hc with rfl | hc
      · exact Or.inr (Or.inl rfl)
      · exact Or.inl (isWordChar_of_isDigit (hfraction.2 c hc))
  cases x with
  | nan =>
    have htext : literal nan = "NaN.0".toList := by decide +kernel
    rw [htext]
    simp [isWordChar]
  | number negative m =>
    cases negative with
    | false => exact hunsigned m
    | true =>
      rw [literal_negative]
      split
      · simp [isWordChar]
      · refine ⟨List.mem_cons_of_mem '-' (hunsigned m).1, fun c hc => ?_⟩
        rcases List.mem_cons.1 hc with rfl | hc
        · exact Or.inr (Or.inr rfl)
        · exact (hunsigned m).2 c hc

end Binary64

end StoreCommand
