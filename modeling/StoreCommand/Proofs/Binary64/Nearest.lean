import Mathlib.Algebra.Order.Field.Rat
import Mathlib.Tactic.Linarith
import Mathlib.Tactic.NormNum
import Mathlib.Tactic.Positivity
import StoreCommand.Proofs.Binary64.Rounding

/-!
# Correct rounding

The value of a magnitude is a rational number, and rounding a rational number takes the magnitude
whose value is nearest to it, of two that are equally near the even one; from the middle between the
greatest finite value and the next power of two onwards it takes infinity (`IsNearest`).  That is
said without ranks and midpoints, and it leaves no choice (`IsNearest.unique`).

`nearest` compares whole numbers only.  It rounds correctly (`isNearest_nearest`), because the
values increase with their ranks: of two neighbours around a number, every rank below the lower one
and above the upper one is farther away, and the midpoint tells which of the two is nearer.

The finite values are the numbers of the format, 53 binary digits times a power of two
(`exists_value_eq_iff`).
-/

namespace StoreCommand

namespace Binary64

/-! ### Values -/

/-- The value of a rank; for infinity it is the power of two behind the finite values. -/
def rankValue (rank : Nat) : ℚ :=
  unitsOfRank rank / 2 ^ unitExponent

def Magnitude.value (m : Magnitude) : ℚ :=
  rankValue m.rank

/-- The middle between the greatest finite value and the power of two behind it. -/
def overflowThreshold : ℚ :=
  2 ^ 1024 - 2 ^ 970

/-- Rounding `x` to nearest gives `m`: infinity from the threshold onwards, and otherwise a finite
    magnitude to which no other is nearer, and which is even if another is equally near. -/
structure IsNearest (x : ℚ) (m : Magnitude) : Prop where
  infinite_iff : m = Magnitude.infinite ↔ overflowThreshold ≤ x
  closest : m ≠ Magnitude.infinite → ∀ other : Magnitude, other ≠ Magnitude.infinite →
    |x - m.value| ≤ |x - other.value|
  even_of_tie : m ≠ Magnitude.infinite → ∀ other : Magnitude, other ≠ Magnitude.infinite →
    other ≠ m → |x - m.value| = |x - other.value| → m.rank % 2 = 0

theorem units_pos : (0 : ℚ) < 2 ^ unitExponent := by positivity

theorem cast_pow_two (n : Nat) : ((Nat.pow 2 n : Nat) : ℚ) = 2 ^ n :=
  Nat.cast_pow 2 n

theorem rankValue_strictMono : StrictMono rankValue := by
  intro a b hab
  have hunits : (unitsOfRank a : ℚ) < unitsOfRank b := by exact_mod_cast unitsOfRank_strictMono hab
  exact div_lt_div_of_pos_right hunits units_pos

/-- The value of a rank in a binade, as a significand and a power of two. -/
theorem rankValue_binade {binade offset : Nat} (h : offset ≤ binadeSize) :
    rankValue ((binade + 1) * binadeSize + offset) =
      (binadeSize + offset : Nat) * 2 ^ binade / 2 ^ unitExponent := by
  rw [rankValue, unitsOfRank_binade h, Nat.cast_mul, cast_pow_two]

theorem rankValue_infinite : rankValue infiniteRank = 2 ^ 1024 := by
  have hrank : infiniteRank = (2046 + 1) * binadeSize + 0 := rfl
  have hsize : ((binadeSize + 0 : Nat) : ℚ) = 2 ^ 52 := by norm_num [binadeSize]
  rw [hrank, rankValue_binade (Nat.zero_le _), hsize, div_eq_iff units_pos.ne', ← pow_add,
    ← pow_add]
  rfl

/-- The greatest finite value. -/
theorem rankValue_last : rankValue (infiniteRank - 1) = 2 ^ 1024 - 2 ^ 971 := by
  have hrank : infiniteRank - 1 = (2045 + 1) * binadeSize + (binadeSize - 1) := rfl
  have hsize : ((binadeSize + (binadeSize - 1) : Nat) : ℚ) = 2 ^ 53 - 1 := by
    norm_num [binadeSize]
  have hpow : ∀ a b : Nat, (2 : ℚ) ^ (a + b) = 2 ^ a * 2 ^ b := pow_add 2
  have hfirst : (2 : ℚ) ^ 1024 * 2 ^ unitExponent = 2 ^ 53 * 2 ^ 2045 := by
    rw [← hpow, ← hpow]
    rfl
  have hsecond : (2 : ℚ) ^ 971 * 2 ^ unitExponent = 2 ^ 2045 := by
    rw [← hpow]
    rfl
  rw [hrank, rankValue_binade (Nat.sub_le _ _), hsize, div_eq_iff units_pos.ne', sub_mul, sub_mul,
    hfirst, hsecond, one_mul]

theorem rankValue_last_add : rankValue (infiniteRank - 1) + rankValue infiniteRank =
    2 * overflowThreshold := by
  have hdouble : (2 : ℚ) ^ 971 = 2 * 2 ^ 970 := by rw [← pow_succ']
  rw [rankValue_last, rankValue_infinite, overflowThreshold, hdouble]
  -- the powers stay names, or they would be multiplied out
  generalize (2 : ℚ) ^ 1024 = top
  generalize (2 : ℚ) ^ 970 = step
  ring

theorem rankValue_lt_threshold {rank : Nat} (h : rank < infiniteRank) :
    rankValue rank < overflowThreshold := by
  have hle : rankValue rank ≤ rankValue (infiniteRank - 1) :=
    rankValue_strictMono.monotone (Nat.le_sub_one_of_lt h)
  have hlast : rankValue (infiniteRank - 1) < rankValue infiniteRank :=
    rankValue_strictMono (by decide)
  linarith [rankValue_last_add]

theorem threshold_le_rankValue {rank : Nat} (h : infiniteRank ≤ rank) :
    overflowThreshold ≤ rankValue rank := by
  have hle : rankValue infiniteRank ≤ rankValue rank := rankValue_strictMono.monotone h
  have hlast : rankValue (infiniteRank - 1) < rankValue infiniteRank :=
    rankValue_strictMono (by decide)
  linarith [rankValue_last_add]

theorem rank_lt_of_ne {m : Magnitude} (h : m ≠ Magnitude.infinite) : m.rank < infiniteRank :=
  Nat.lt_of_le_of_ne m.rank_le fun heq => h (Magnitude.ext_rank heq)

/-! ### Two neighbours -/

section Neighbours

variable {x : ℚ} {low : Nat}

theorem distance_below {rank : Nat} (hlow : rankValue low ≤ x) (h : rank ≤ low) :
    |x - rankValue rank| = x - rankValue rank := by
  have hle := rankValue_strictMono.monotone h
  exact abs_of_nonneg (by linarith)

theorem distance_above {rank : Nat} (hhigh : x < rankValue (low + 1)) (h : low + 1 ≤ rank) :
    |x - rankValue rank| = rankValue rank - x := by
  have hle := rankValue_strictMono.monotone h
  rw [abs_sub_comm]
  exact abs_of_nonneg (by linarith)

/-- Up to the midpoint the lower neighbour is nearest. -/
theorem nearest_below (hlow : rankValue low ≤ x) (hhigh : x < rankValue (low + 1))
    (hmid : 2 * x ≤ rankValue low + rankValue (low + 1)) (rank : Nat) :
    |x - rankValue low| ≤ |x - rankValue rank| ∧
      (rank ≠ low → |x - rankValue low| = |x - rankValue rank| →
        2 * x = rankValue low + rankValue (low + 1)) := by
  rw [distance_below hlow (Nat.le_refl low)]
  rcases Nat.lt_or_ge low rank with habove | hbelow
  · have hle : rankValue (low + 1) ≤ rankValue rank := rankValue_strictMono.monotone habove
    rw [distance_above hhigh habove]
    exact ⟨by linarith, fun _ htie => by linarith⟩
  · have hle : rankValue rank ≤ rankValue low := rankValue_strictMono.monotone hbelow
    rw [distance_below hlow hbelow]
    refine ⟨by linarith, fun hne htie => ?_⟩
    have hlt : rankValue rank < rankValue low :=
      rankValue_strictMono (Nat.lt_of_le_of_ne hbelow hne)
    linarith

/-- From the midpoint onwards the upper neighbour is nearest. -/
theorem nearest_above (hlow : rankValue low ≤ x) (hhigh : x < rankValue (low + 1))
    (hmid : rankValue low + rankValue (low + 1) ≤ 2 * x) (rank : Nat) :
    |x - rankValue (low + 1)| ≤ |x - rankValue rank| ∧
      (rank ≠ low + 1 → |x - rankValue (low + 1)| = |x - rankValue rank| →
        2 * x = rankValue low + rankValue (low + 1)) := by
  rw [distance_above hhigh (Nat.le_refl (low + 1))]
  rcases Nat.lt_or_ge low rank with habove | hbelow
  · have hle : rankValue (low + 1) ≤ rankValue rank := rankValue_strictMono.monotone habove
    rw [distance_above hhigh habove]
    refine ⟨by linarith, fun hne htie => ?_⟩
    have hlt : rankValue (low + 1) < rankValue rank :=
      rankValue_strictMono (Nat.lt_of_le_of_ne habove (Ne.symm hne))
    linarith
  · have hle : rankValue rank ≤ rankValue low := rankValue_strictMono.monotone hbelow
    rw [distance_below hlow hbelow]
    exact ⟨by linarith, fun _ htie => by linarith⟩

end Neighbours

/-! ### Comparing whole numbers -/

section Ratio

variable {numerator denominator : Nat}

theorem rankValue_le_ratio_iff (h : 0 < denominator) {rank : Nat} :
    rankValue rank ≤ (numerator / denominator : ℚ) ↔
      unitsOfRank rank * denominator ≤ numerator * Nat.pow 2 unitExponent := by
  have hpos : (0 : ℚ) < denominator := by exact_mod_cast h
  rw [rankValue, div_le_div_iff₀ units_pos hpos, ← cast_pow_two]
  exact_mod_cast Iff.rfl

theorem ratio_lt_rankValue_iff (h : 0 < denominator) {rank : Nat} :
    (numerator / denominator : ℚ) < rankValue rank ↔
      numerator * Nat.pow 2 unitExponent < unitsOfRank rank * denominator := by
  rw [← not_le, rankValue_le_ratio_iff h, Nat.not_le]

/-- The lower neighbour of a ratio is found from its whole number of units. -/
theorem floorRank_neighbours (numerator : Nat) (h : 0 < denominator) :
    rankValue (floorRank (numerator * Nat.pow 2 unitExponent / denominator)) ≤
        (numerator / denominator : ℚ) ∧
      (numerator / denominator : ℚ) <
        rankValue (floorRank (numerator * Nat.pow 2 unitExponent / denominator) + 1) := by
  rw [rankValue_le_ratio_iff h, ratio_lt_rankValue_iff h]
  exact ⟨(Nat.le_div_iff_mul_le h).1 (unitsOfRank_floorRank_le _),
    (Nat.div_lt_iff_lt_mul h).1 (lt_unitsOfRank_floorRank_succ _)⟩

theorem roundsUp_iff (h : 0 < denominator) {rank : Nat} :
    roundsUp numerator denominator rank = true ↔
      rankValue rank + rankValue (rank + 1) < 2 * (numerator / denominator : ℚ) ∨
        (rankValue rank + rankValue (rank + 1) = 2 * (numerator / denominator : ℚ) ∧
          rank % 2 = 1) := by
  have hpos : (0 : ℚ) < denominator := by exact_mod_cast h
  have hmid : rankValue rank + rankValue (rank + 1) =
      ((unitsOfRank rank + unitsOfRank (rank + 1) : Nat) : ℚ) / 2 ^ unitExponent := by
    rw [rankValue, rankValue, ← add_div, Nat.cast_add]
  have hratio : 2 * (numerator / denominator : ℚ) = (2 * numerator : Nat) / denominator := by
    push_cast
    ring
  have hdouble : 2 * (numerator * Nat.pow 2 unitExponent) =
      2 * numerator * Nat.pow 2 unitExponent := (Nat.mul_assoc _ _ _).symm
  rw [hmid, hratio, div_lt_div_iff₀ units_pos hpos, div_eq_div_iff units_pos.ne' hpos.ne',
    ← cast_pow_two]
  simp only [roundsUp, hdouble, Bool.or_eq_true, Bool.and_eq_true, decide_eq_true_eq]
  exact_mod_cast Iff.rfl

end Ratio

/-! ### Rounding is correct -/

theorem isNearest_infinite {x : ℚ} (h : overflowThreshold ≤ x) :
    IsNearest x Magnitude.infinite where
  infinite_iff := ⟨fun _ => h, fun _ => rfl⟩
  closest hne := absurd rfl hne
  even_of_tie hne := absurd rfl hne

theorem isNearest_of_rank {x : ℚ} {m : Magnitude} (hx : x < overflowThreshold)
    (hm : m ≠ Magnitude.infinite)
    (h : ∀ rank, |x - m.value| ≤ |x - rankValue rank| ∧
      (rank ≠ m.rank → |x - m.value| = |x - rankValue rank| → m.rank % 2 = 0)) :
    IsNearest x m where
  infinite_iff := ⟨fun heq => absurd heq hm, fun hle => absurd hx (not_lt.2 hle)⟩
  closest _ other _ := (h other.rank).1
  even_of_tie _ other _ hne htie :=
    (h other.rank).2 (fun heq => hne (Magnitude.ext_rank heq)) htie

section Neighbours

variable {x : ℚ} {low : Nat}

theorem odd_of_last (h : low + 1 = infiniteRank) : low % 2 = 1 := by
  simp only [infiniteRank, binadeSize] at h
  omega

theorem isNearest_below (hlow : rankValue low ≤ x) (hhigh : x < rankValue (low + 1))
    (hfinite : low < infiniteRank) (hmid : 2 * x ≤ rankValue low + rankValue (low + 1))
    (htied : 2 * x = rankValue low + rankValue (low + 1) → low % 2 = 0) :
    IsNearest x ⟨low, Nat.le_of_lt hfinite⟩ := by
  have hbelow : x < overflowThreshold := by
    by_cases hlast : low + 1 = infiniteRank
    · -- the last finite rank is odd, so the threshold itself is rounded up
      have hne : 2 * x ≠ rankValue low + rankValue (low + 1) := by
        intro heq
        exact absurd (odd_of_last hlast) (by simp [htied heq])
      have hlt := lt_of_le_of_ne hmid hne
      obtain rfl : low = infiniteRank - 1 := by omega
      rw [hlast, rankValue_last_add] at hlt
      linarith
    · exact hhigh.trans (rankValue_lt_threshold (Nat.lt_of_le_of_ne hfinite hlast))
  refine isNearest_of_rank hbelow
    (fun heq => absurd (congrArg Magnitude.rank heq) (Nat.ne_of_lt hfinite)) fun rank => ?_
  obtain ⟨hclosest, htie⟩ := nearest_below hlow hhigh hmid rank
  exact ⟨hclosest, fun hne heq => htied (htie hne heq)⟩

theorem isNearest_above (hlow : rankValue low ≤ x) (hhigh : x < rankValue (low + 1))
    (hfinite : low < infiniteRank) (hmid : rankValue low + rankValue (low + 1) ≤ 2 * x)
    (htied : 2 * x = rankValue low + rankValue (low + 1) → low % 2 = 1) :
    IsNearest x ⟨low + 1, hfinite⟩ := by
  by_cases hlast : low + 1 = infiniteRank
  · -- the upper neighbour is infinity, and the middle is the threshold
    have hinfinite : (⟨low + 1, hfinite⟩ : Magnitude) = Magnitude.infinite :=
      Magnitude.ext_rank hlast
    rw [hinfinite]
    obtain rfl : low = infiniteRank - 1 := by omega
    rw [hlast, rankValue_last_add] at hmid
    exact isNearest_infinite (by linarith)
  · refine isNearest_of_rank
      (hhigh.trans (rankValue_lt_threshold (Nat.lt_of_le_of_ne hfinite hlast)))
      (fun heq => hlast (congrArg Magnitude.rank heq)) fun rank => ?_
    obtain ⟨hclosest, htie⟩ := nearest_above hlow hhigh hmid rank
    refine ⟨hclosest, fun hne heq => ?_⟩
    have hodd := htied (htie hne heq)
    change (low + 1) % 2 = 0
    omega

end Neighbours

/-- The comparison of whole numbers rounds the ratio correctly. -/
theorem isNearest_nearest (numerator : Nat) {denominator : Nat} (h : 0 < denominator) :
    IsNearest (numerator / denominator : ℚ) (nearest numerator denominator) := by
  obtain ⟨hlow, hhigh⟩ := floorRank_neighbours numerator h
  unfold nearest
  generalize floorRank (numerator * Nat.pow 2 unitExponent / denominator) = low at hlow hhigh
  simp only
  by_cases hfinite : low < infiniteRank
  · rw [dif_pos hfinite]
    by_cases hup : roundsUp numerator denominator low = true
    · rw [if_pos hup]
      rcases (roundsUp_iff h).1 hup with hlt | ⟨heq, hodd⟩
      · exact isNearest_above hlow hhigh hfinite hlt.le fun htie => absurd htie (ne_of_gt hlt)
      · exact isNearest_above hlow hhigh hfinite heq.le fun _ => hodd
    · -- strictly below the middle, or on it with an even rank
      rw [if_neg hup]
      have hnot := fun hor => hup ((roundsUp_iff h).2 hor)
      refine isNearest_below hlow hhigh hfinite (not_lt.1 fun hlt => hnot (Or.inl hlt)) ?_
      intro htie
      have hne : low % 2 ≠ 1 := fun hodd => hnot (Or.inr ⟨htie.symm, hodd⟩)
      omega
  · rw [dif_neg hfinite]
    exact isNearest_infinite ((threshold_le_rankValue (Nat.not_lt.1 hfinite)).trans hlow)

/-! ### There is no choice -/

theorem exists_between_of_even {m other : Magnitude} (hlt : m.rank < other.rank)
    (hm : m.rank % 2 = 0) (hother : other.rank % 2 = 0) :
    ∃ between : Magnitude, m.rank < between.rank ∧ between.rank < other.rank :=
  have hle := other.rank_le
  ⟨⟨m.rank + 1, by omega⟩, Nat.lt_succ_self _, by simp only; omega⟩

/-- Of two even magnitudes one is nearer, because another one lies between them. -/
theorem not_tied {x : ℚ} {m other : Magnitude} (hm : IsNearest x m) (hother : IsNearest x other)
    (hfinite : other ≠ Magnitude.infinite) (hlt : m.rank < other.rank) : False := by
  have hne : m ≠ Magnitude.infinite := by
    rintro rfl
    exact absurd hlt (Nat.not_lt.2 other.rank_le)
  have htie : |x - m.value| = |x - other.value| :=
    le_antisymm (hm.closest hne other hfinite) (hother.closest hfinite m hne)
  have hranks : other ≠ m := by
    rintro rfl
    exact absurd hlt (Nat.lt_irrefl _)
  obtain ⟨between, habove, hbelow⟩ := exists_between_of_even hlt
    (hm.even_of_tie hne other hfinite hranks htie)
    (hother.even_of_tie hfinite m hne hranks.symm htie.symm)
  have hbetween : between ≠ Magnitude.infinite := by
    rintro rfl
    exact absurd hbelow (Nat.not_lt.2 other.rank_le)
  have hclosest := hm.closest hne between hbetween
  have hfront : m.value < between.value := rankValue_strictMono habove
  have hback : between.value < other.value := rankValue_strictMono hbelow
  -- the number is the middle of the two, and the third one is strictly inside
  rcases abs_eq_abs.1 htie with heq | heq
  · linarith
  · have hmiddle : x - m.value = (other.value - m.value) / 2 := by linarith
    have hinside : |x - between.value| < (other.value - m.value) / 2 := by
      rw [abs_lt]
      constructor <;> linarith
    rw [hmiddle, abs_of_pos (by linarith)] at hclosest
    linarith

theorem IsNearest.unique {x : ℚ} {m other : Magnitude} (hm : IsNearest x m)
    (hother : IsNearest x other) : m = other := by
  by_cases hthreshold : overflowThreshold ≤ x
  · rw [hm.infinite_iff.2 hthreshold, hother.infinite_iff.2 hthreshold]
  · have hfinite : m ≠ Magnitude.infinite := fun heq => hthreshold (hm.infinite_iff.1 heq)
    have hotherFinite : other ≠ Magnitude.infinite :=
      fun heq => hthreshold (hother.infinite_iff.1 heq)
    rcases Nat.lt_trichotomy m.rank other.rank with hlt | heq | hgt
    · exact (not_tied hm hother hotherFinite hlt).elim
    · exact Magnitude.ext_rank heq
    · exact (not_tied hother hm hfinite hgt).elim

/-! ### The format -/

/-- Every significand of the format has a rank for every exponent: where it has a binary digit less,
    it is doubled for the exponent before. -/
theorem exists_unitsOfRank_eq {significand : Nat} (h : significand < 2 * binadeSize)
    (exponent : Nat) :
    ∃ rank < (exponent + 2) * binadeSize,
      unitsOfRank rank = significand * Nat.pow 2 exponent := by
  induction exponent generalizing significand with
  | zero =>
    have hone : significand * Nat.pow 2 0 = significand := Nat.mul_one _
    exact ⟨significand, by simpa using h, by rw [hone, (floorRank_of_lt h).2]⟩
  | succ exponent ih =>
    by_cases hsmall : significand < binadeSize
    · -- a leading zero: double the significand for the exponent before
      have hdouble : 2 * significand < 2 * binadeSize := by omega
      obtain ⟨rank, hrank, hunits⟩ := ih hdouble
      have hpow : Nat.pow 2 (exponent + 1) = 2 * Nat.pow 2 exponent := Nat.pow_succ'
      refine ⟨rank, hrank.trans_le (Nat.mul_le_mul_right _ (by omega)), ?_⟩
      rw [hunits, hpow]
      ring
    · refine ⟨(exponent + 1 + 1) * binadeSize + (significand - binadeSize), ?_, ?_⟩
      · have hsplit : (exponent + 1 + 2) * binadeSize =
            (exponent + 1 + 1) * binadeSize + binadeSize := by ring
        omega
      · rw [unitsOfRank_binade (by omega), Nat.add_sub_cancel' (Nat.not_lt.1 hsmall)]

/-- The finite values are the numbers with a significand of at most 53 binary digits and an exponent
    in range. -/
theorem exists_value_eq_iff {x : ℚ} :
    (∃ m : Magnitude, m ≠ Magnitude.infinite ∧ m.value = x) ↔
      ∃ significand exponent : Nat, significand < 2 ^ 53 ∧ exponent ≤ 2045 ∧
        x = significand * 2 ^ exponent / 2 ^ unitExponent := by
  have hsize : (2 : Nat) ^ 53 = 2 * binadeSize := by decide
  rw [hsize]
  constructor
  · rintro ⟨m, hm, rfl⟩
    have hrank := rank_lt_of_ne hm
    by_cases hsmall : m.rank < binadeSize
    · -- the subnormal numbers are their own significands
      refine ⟨m.rank, 0, by omega, Nat.zero_le _, ?_⟩
      have hunits : unitsOfRank m.rank = m.rank := if_pos hsmall
      rw [Magnitude.value, rankValue, hunits, pow_zero, mul_one]
    · obtain ⟨binade, offset, hoffset, heq⟩ := exists_binade (Nat.not_lt.1 hsmall)
      refine ⟨binadeSize + offset, binade, by omega, ?_, ?_⟩
      · simp only [infiniteRank, binadeSize] at *
        omega
      · rw [Magnitude.value, heq, rankValue_binade hoffset.le]
  · rintro ⟨significand, exponent, hsignificand, hexponent, rfl⟩
    obtain ⟨rank, hrank, hunits⟩ := exists_unitsOfRank_eq hsignificand exponent
    have hfinite : rank < infiniteRank :=
      hrank.trans_le (Nat.mul_le_mul_right binadeSize (by omega))
    refine ⟨⟨rank, hfinite.le⟩, fun heq => ?_, ?_⟩
    · exact absurd (congrArg Magnitude.rank heq) (Nat.ne_of_lt hfinite)
    · rw [Magnitude.value, rankValue, hunits, Nat.cast_mul, cast_pow_two]

end Binary64

end StoreCommand
