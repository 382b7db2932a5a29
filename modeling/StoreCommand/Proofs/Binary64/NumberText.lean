import Mathlib.Tactic.FieldSimp
import StoreCommand.Proofs.Binary64.Nearest
import StoreCommand.Proofs.Binary64.ReadBack

/-!
# The texts of numbers

The grammar of numbers, said without a scanner.  A decimal has a dot or none, digits on at least one
of its sides, and an exponent or none (`DecimalText`); it denotes a rational number.  A number is a
sign or none with a decimal behind it, which is rounded correctly, or with one of the words for
infinity and not-a-number in any case (`NumberText`).

Reading follows this grammar: a text is read as a number exactly if the grammar says so
(`ofText?_eq_some_iff`).  In particular no text denotes two numbers.  Exponents and digits may be as
long as they like; where reading cuts an exponent down, the number is infinite with either exponent
or zero with either (`Decimal.isNearest_nearest`).
-/

namespace StoreCommand

/-! ### The grammar -/

inductive ExponentText : List Char → Int → Prop where
  | absent : ExponentText [] 0
  | marked {c : Char} {text : List Char} {exponent : Int} (mark : c = 'e' ∨ c = 'E')
      (integer : IntegerText text exponent) : ExponentText (c :: text) exponent

/-- The text of a non-negative rational number. -/
inductive DecimalText : List Char → ℚ → Prop where
  | whole {digits exponentText : List Char} {exponent : Int} (numeral : IsNumeral digits)
      (power : ExponentText exponentText exponent) :
      DecimalText (digits ++ exponentText) (digitsValue digits * 10 ^ exponent)
  | pointed {digits fraction exponentText : List Char} {exponent : Int}
      (numeral : IsNumeral (digits ++ fraction)) (power : ExponentText exponentText exponent) :
      DecimalText (digits ++ '.' :: (fraction ++ exponentText))
        ((digitsValue digits + digitsValue fraction / 10 ^ fraction.length) * 10 ^ exponent)

namespace Binary64

/-- The text denotes the number. -/
inductive NumberText : List Char → Binary64 → Prop where
  | decimal {sign text : List Char} {negative : Bool} {value : ℚ} {m : Magnitude}
      (signText : SignText sign negative) (decimalText : DecimalText text value)
      (nearest : IsNearest value m) : NumberText (sign ++ text) (number negative m)
  | infinity {sign word : List Char} {negative : Bool} (signText : SignText sign negative)
      (spelled : lowered word = "inf".toList ∨ lowered word = "infinity".toList) :
      NumberText (sign ++ word) (number negative Magnitude.infinite)
  | nan {sign word : List Char} {negative : Bool} (signText : SignText sign negative)
      (spelled : lowered word = "nan".toList) : NumberText (sign ++ word) nan

end Binary64

theorem decimalText_of_isNumeral {digits : List Char} (h : IsNumeral digits) :
    DecimalText digits (digitsValue digits) := by
  have hwhole := DecimalText.whole h .absent
  rwa [List.append_nil, zpow_zero, mul_one] at hwhole

theorem decimalText_of_fraction {whole fraction : List Char} (hwhole : IsNumeral whole)
    (hfraction : IsNumeral fraction) :
    DecimalText (whole ++ '.' :: fraction)
      (digitsValue whole + digitsValue fraction / 10 ^ fraction.length) := by
  have hne : whole ++ fraction ≠ [] := List.append_ne_nil_of_left_ne_nil hwhole.1 _
  have hpointed := DecimalText.pointed (isNumeral_append hwhole.2 hfraction.2 hne) .absent
  rwa [List.append_nil, zpow_zero, mul_one] at hpointed

/-! ### Decimals -/

namespace Decimal

def value (d : Decimal) : ℚ :=
  d.coefficient * 10 ^ d.exponent

theorem exponent?_eq_some_iff {text : List Char} {exponent : Int} :
    exponent? text = some exponent ↔ ExponentText text exponent := by
  constructor
  · intro h
    unfold exponent? at h
    split at h
    · obtain rfl := Option.some.inj h
      exact .absent
    · split at h
      · rename_i hmark
        exact .marked hmark (integer?_eq_some_iff.1 h)
      · exact absurd h (by simp)
  · intro h
    cases h with
    | absent => rfl
    | marked mark integer => rw [exponent?, if_pos mark, integer?_eq_some_iff.2 integer]

theorem cast_pow_ten (n : Nat) : ((Nat.pow 10 n : Nat) : ℚ) = 10 ^ n :=
  Nat.cast_pow 10 n

/-- Digits behind the dot count as they are, divided by a power of ten. -/
theorem value_of_parts (whole fraction : List Char) (exponent : Int) :
    (⟨digitsValue (whole ++ fraction), exponent - fraction.length⟩ : Decimal).value =
      (digitsValue whole + digitsValue fraction / 10 ^ fraction.length) * 10 ^ exponent := by
  have hten : (10 : ℚ) ≠ 0 := by norm_num
  rw [value, digitsValue_append, zpow_sub₀ hten, zpow_natCast, Nat.cast_add, Nat.cast_mul,
    cast_pow_ten]
  field_simp

theorem ofParts?_eq_some_iff {whole fraction rest : List Char} {d : Decimal} :
    ofParts? whole fraction rest = some d ↔ whole ++ fraction ≠ [] ∧
      ∃ exponent, ExponentText rest exponent ∧
        d = ⟨digitsValue (whole ++ fraction), exponent - fraction.length⟩ := by
  unfold ofParts?
  by_cases hempty : whole ++ fraction = []
  · simp [hempty]
  · rw [if_neg hempty, Option.map_eq_some_iff]
    constructor
    · rintro ⟨exponent, hexponent, rfl⟩
      exact ⟨hempty, exponent, exponent?_eq_some_iff.1 hexponent, rfl⟩
    · rintro ⟨-, exponent, hexponent, rfl⟩
      exact ⟨exponent, exponent?_eq_some_iff.2 hexponent, rfl⟩

theorem ne_dot_of_exponentText {text : List Char} {exponent : Int}
    (h : ExponentText text exponent) : ∀ c ∈ text.head?, c.isDigit = false ∧ c ≠ '.' := by
  cases h with
  | absent => simp
  | @marked c _ _ mark =>
    intro d hd
    obtain rfl : c = d := by simpa using hd
    rcases mark with rfl | rfl <;> decide

theorem decimalText_of_ofText? {text : List Char} {d : Decimal} (h : ofText? text = some d) :
    DecimalText text d.value := by
  have hdigits : ∀ rest : List Char, ∀ c ∈ rest.takeWhile Char.isDigit, c.isDigit = true :=
    fun rest c hc => List.all_eq_true.1 List.all_takeWhile c hc
  have hcut := List.takeWhile_append_dropWhile (p := Char.isDigit) (l := text)
  unfold ofText? at h
  split at h
  · rename_i rest hrest
    obtain ⟨hne, exponent, hexponent, rfl⟩ := ofParts?_eq_some_iff.1 h
    rw [value_of_parts]
    rw [hrest, ← List.takeWhile_append_dropWhile (p := Char.isDigit) (l := rest)] at hcut
    have hwhole :=
      DecimalText.pointed (isNumeral_append (hdigits text) (hdigits rest) hne) hexponent
    rwa [hcut] at hwhole
  · -- without a dot the fraction is empty, and the exponent is not shifted
    obtain ⟨hne, exponent, hexponent, rfl⟩ := ofParts?_eq_some_iff.1 h
    rw [List.append_nil] at hne
    have hwhole := DecimalText.whole ⟨hne, hdigits text⟩ hexponent
    rw [hcut] at hwhole
    simpa [value] using hwhole

theorem exists_ofText?_of_decimalText {text : List Char} {x : ℚ} (h : DecimalText text x) :
    ∃ d, ofText? text = some d ∧ d.value = x := by
  cases h with
  | @whole digits exponentText exponent numeral power =>
    have hne : digits ++ [] ≠ [] := by simpa using numeral.1
    refine ⟨⟨digitsValue (digits ++ []), exponent - ([] : List Char).length⟩, ?_, ?_⟩
    · rw [ofText?_whole numeral.2 (ne_dot_of_exponentText power)]
      exact ofParts?_eq_some_iff.2 ⟨hne, exponent, power, rfl⟩
    · simp [value]
  | @pointed digits fraction exponentText exponent numeral power =>
    refine ⟨⟨digitsValue (digits ++ fraction), exponent - fraction.length⟩, ?_,
      value_of_parts digits fraction exponent⟩
    rw [ofText?_pointed (fun c hc => numeral.2 c (List.mem_append_left _ hc))
      (fun c hc => numeral.2 c (List.mem_append_right _ hc))
      (fun c hc => (ne_dot_of_exponentText power c hc).1)]
    exact ofParts?_eq_some_iff.2 ⟨numeral.1, exponent, power, rfl⟩

/-! ### Powers of ten -/

theorem threshold_le {coefficient exponent : Nat} (hpos : 0 < coefficient)
    (h : 400 ≤ exponent) : Binary64.overflowThreshold ≤ coefficient * 10 ^ exponent := by
  have hcoefficient : (1 : ℚ) ≤ coefficient := by exact_mod_cast hpos
  have hstep : (0 : ℚ) < 2 ^ 970 := by positivity
  have height : (2 : ℚ) ^ 3 = 8 := by norm_num
  calc Binary64.overflowThreshold
      ≤ 2 ^ 1024 := by rw [Binary64.overflowThreshold]; exact (sub_lt_self _ hstep).le
    _ ≤ 2 ^ (3 * 400) := pow_le_pow_right₀ (by norm_num) (by norm_num)
    _ = 8 ^ 400 := by rw [pow_mul, height]
    _ ≤ 10 ^ 400 := pow_le_pow_left₀ (by norm_num) (by norm_num) _
    _ ≤ 10 ^ exponent := pow_le_pow_right₀ (by norm_num) h
    _ = 1 * 10 ^ exponent := (one_mul _).symm
    _ ≤ coefficient * 10 ^ exponent := mul_le_mul_of_nonneg_right hcoefficient (by positivity)

theorem isNearest_power (coefficient exponent : Nat) :
    Binary64.IsNearest (coefficient * 10 ^ exponent)
      (Binary64.nearest (coefficient * Nat.pow 10 exponent) 1) := by
  have hnearest := Binary64.isNearest_nearest (coefficient * Nat.pow 10 exponent) Nat.one_pos
  rwa [Nat.cast_one, div_one, Nat.cast_mul, cast_pow_ten] at hnearest

theorem nearest_power_of_le {coefficient exponent : Nat} (hpos : 0 < coefficient)
    (h : 400 ≤ exponent) :
    Binary64.nearest (coefficient * Nat.pow 10 exponent) 1 = Binary64.Magnitude.infinite :=
  (isNearest_power coefficient exponent).infinite_iff.2 (threshold_le hpos h)

/-- A greater power of ten than the 400th rounds to infinity as that one does. -/
theorem nearest_power_min (coefficient exponent : Nat) {bound : Nat} (hbound : 400 ≤ bound) :
    Binary64.nearest (coefficient * Nat.pow 10 (min exponent bound)) 1 =
      Binary64.nearest (coefficient * Nat.pow 10 exponent) 1 := by
  rcases Nat.le_total exponent bound with hsmall | hlarge
  · rw [Nat.min_eq_left hsmall]
  · rw [Nat.min_eq_right hlarge]
    rcases Nat.eq_zero_or_pos coefficient with rfl | hpos
    · -- no power of ten makes zero infinite
      rw [Nat.zero_mul, Nat.zero_mul]
    · rw [nearest_power_of_le hpos hbound, nearest_power_of_le hpos (Nat.le_trans hbound hlarge)]

/-- A decimal is rounded correctly, whatever its exponent. -/
theorem isNearest_nearest (d : Decimal) : Binary64.IsNearest d.value d.nearest := by
  obtain ⟨coefficient, exponent⟩ := d
  cases exponent with
  | ofNat e =>
    have hvalue : (⟨coefficient, Int.ofNat e⟩ : Decimal).value = coefficient * 10 ^ e := by
      rw [value, Int.ofNat_eq_natCast, zpow_natCast]
    have hnearest : (⟨coefficient, Int.ofNat e⟩ : Decimal).nearest =
        Binary64.nearest (coefficient * Nat.pow 10 (min e 400)) 1 := rfl
    rw [hvalue, hnearest, nearest_power_min _ _ (Nat.le_refl 400)]
    exact isNearest_power coefficient e
  | negSucc e =>
    -- the power of ten divides here, and reading has cut it down in its own way
    have hexponent : Int.negSucc e = -((e + 1 : Nat) : Int) := rfl
    have hvalue : (⟨coefficient, -((e + 1 : Nat) : Int)⟩ : Decimal).value =
        coefficient / (Nat.pow 10 (e + 1) : Nat) := by
      rw [value, zpow_neg, zpow_natCast, cast_pow_ten, div_eq_mul_inv]
    rw [hexponent, nearest_neg, hvalue]
    exact Binary64.isNearest_nearest coefficient (Nat.pow_pos (by decide))

end Decimal

/-! ### Numbers -/

namespace Binary64

theorem exists_head_of_decimalText {text : List Char} {x : ℚ} (h : DecimalText text x) :
    ∃ c rest, text = c :: rest ∧ (c.isDigit = true ∨ c = '.') := by
  cases h with
  | @whole digits exponentText _ numeral =>
    cases digits with
    | nil => exact absurd rfl numeral.1
    | cons c digits => exact ⟨c, _, rfl, Or.inl (numeral.2 c List.mem_cons_self)⟩
  | @pointed digits fraction exponentText _ numeral =>
    cases digits with
    | nil => exact ⟨'.', _, rfl, Or.inr rfl⟩  -- a dot may come first
    | cons c digits => exact ⟨c, _, rfl, Or.inl (numeral.2 c List.mem_cons_self)⟩

/-- A word that begins with a letter has no sign in front. -/
theorem ne_sign_of_lowered {word letters : List Char} (first : Char) (hfirst : first.isAlpha = true)
    (h : lowered word = first :: letters) : ∀ c ∈ word.head?, c ≠ '-' ∧ c ≠ '+' := by
  intro c hc
  obtain ⟨tail, rfl⟩ : ∃ tail, word = c :: tail := List.head?_eq_some_iff.1 hc
  have hlower : c.toLower = first := (List.cons.inj h).1
  constructor
  · rintro rfl
    rw [← hlower] at hfirst
    exact absurd hfirst (by decide)
  · rintro rfl
    rw [← hlower] at hfirst
    exact absurd hfirst (by decide)

theorem ofText?_of_decimal {sign text : List Char} {negative : Bool} {x : ℚ} {m : Magnitude}
    (hsign : SignText sign negative) (htext : DecimalText text x) (hm : IsNearest x m) :
    ofText? (sign ++ text) = some (number negative m) := by
  obtain ⟨d, hd, rfl⟩ := Decimal.exists_ofText?_of_decimalText htext
  obtain ⟨c, rest, rfl, hc⟩ := exists_head_of_decimalText htext
  have hsplit : splitSign (sign ++ c :: rest) = (negative, c :: rest) := by
    refine splitSign_append hsign fun d hd => ?_
    obtain rfl : c = d := by simpa using hd
    constructor <;> rintro rfl <;> exact absurd hc (by decide)
  rw [ofText?_of_splitSign hsplit hc, hd, Option.map_some, hm.unique d.isNearest_nearest]

theorem ofText?_of_infinity {sign word : List Char} {negative : Bool}
    (hsign : SignText sign negative)
    (h : lowered word = "inf".toList ∨ lowered word = "infinity".toList) :
    ofText? (sign ++ word) = some (number negative Magnitude.infinite) := by
  have hword : ∀ c ∈ word.head?, c ≠ '-' ∧ c ≠ '+' := by
    rcases h with h | h
    · exact ne_sign_of_lowered 'i' (by decide) h
    · exact ne_sign_of_lowered 'i' (by decide) h
  unfold ofText?
  rw [splitSign_append hsign hword]
  exact if_pos h

theorem ofText?_of_nan {sign word : List Char} {negative : Bool} (hsign : SignText sign negative)
    (h : lowered word = "nan".toList) : ofText? (sign ++ word) = some nan := by
  have hword : ∀ c ∈ word.head?, c ≠ '-' ∧ c ≠ '+' :=
    ne_sign_of_lowered 'n' (by decide) h
  have hinf : ¬ (lowered word = "inf".toList ∨ lowered word = "infinity".toList) := by
    rw [h]
    decide
  unfold ofText?
  rw [splitSign_append hsign hword]
  exact (if_neg hinf).trans (if_pos h)

/-- A text is read as a number exactly if it denotes this number. -/
theorem ofText?_eq_some_iff {text : List Char} {x : Binary64} :
    ofText? text = some x ↔ NumberText text x := by
  constructor
  · intro h
    obtain ⟨sign, htext, hsign⟩ := exists_signText text
    rw [htext]
    unfold ofText? at h
    simp only at h
    split at h
    · -- one of the two words for infinity
      rename_i hword
      obtain rfl := Option.some.inj h
      exact .infinity hsign hword
    · split at h
      · -- the word for not-a-number; its sign is lost
        rename_i hword
        obtain rfl := Option.some.inj h
        exact .nan hsign hword
      · -- no word, so only a decimal is left
        obtain ⟨d, hd, rfl⟩ := Option.map_eq_some_iff.1 h
        exact .decimal hsign (Decimal.decimalText_of_ofText? hd) d.isNearest_nearest
  · intro h
    cases h with
    | decimal signText decimalText nearest => exact ofText?_of_decimal signText decimalText nearest
    | infinity signText spelled => exact ofText?_of_infinity signText spelled
    | nan signText spelled => exact ofText?_of_nan signText spelled

/-- The exact middle between two numbers goes to the even one. -/
example : ofText? "9007199254740993".toList = ofText? "9007199254740992".toList := by
  decide +kernel

theorem ofText?_eq_none_iff {text : List Char} :
    ofText? text = none ↔ ∀ x, ¬ NumberText text x := by
  rw [Option.eq_none_iff_forall_ne_some]
  exact forall_congr' fun x => not_congr ofText?_eq_some_iff

/-- Every decimal denotes a number, with any sign. -/
theorem exists_numberText {sign text : List Char} {negative : Bool} {x : ℚ}
    (hsign : SignText sign negative) (htext : DecimalText text x) :
    ∃ m, IsNearest x m ∧
      NumberText (sign ++ text) (number negative m) := by
  obtain ⟨d, -, rfl⟩ := Decimal.exists_ofText?_of_decimalText htext
  exact ⟨d.nearest, d.isNearest_nearest, .decimal hsign htext d.isNearest_nearest⟩

/-- What denotes an integer denotes a number too. -/
theorem exists_numberText_of_integerText {text : List Char} {n : Int} (h : IntegerText text n) :
    ∃ x, NumberText text x := by
  cases h with
  | signed signText numeral =>
    obtain ⟨m, -, hm⟩ := exists_numberText signText (decimalText_of_isNumeral numeral)
    exact ⟨_, hm⟩

end Binary64

end StoreCommand
