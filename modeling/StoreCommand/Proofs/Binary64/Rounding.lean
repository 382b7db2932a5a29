import Mathlib.Tactic.Ring
import StoreCommand.Binary64.Numeral

/-!
# Ranks, units and rounding

The values of the format lie on a grid that becomes coarser from binade to binade, and a rank counts
them.  Inside one binade the value grows evenly with the rank, and the end of a binade is the
beginning of the next one (`unitsOfRank_binade`).  So values increase with their ranks, and
`floorRank` finds the greatest rank that is not too large (`unitsOfRank_floorRank_le` and
`lt_unitsOfRank_floorRank_succ`).

Rounding follows: a ratio that is a value already is not changed (`nearest_of_eq`), only the ratio
counts and not its terms (`nearest_mul_mul`), and a ratio below half a unit becomes zero
(`nearest_of_lt`).
-/

namespace StoreCommand

namespace Binary64

/-! ### Ranks -/

theorem unitsOfRank_binade {binade offset : Nat} (h : offset ≤ binadeSize) :
    unitsOfRank ((binade + 1) * binadeSize + offset) =
      (binadeSize + offset) * Nat.pow 2 binade := by
  have hinside : ∀ b t : Nat, t < binadeSize →
      unitsOfRank ((b + 1) * binadeSize + t) = (binadeSize + t) * Nat.pow 2 b := by
    intro b t ht
    have hnot : ¬ (b + 1) * binadeSize + t < binadeSize := by
      simp only [binadeSize]
      omega
    have hdiv : ((b + 1) * binadeSize + t) / binadeSize = b + 1 := by
      simp only [binadeSize] at *
      omega
    have hmod : ((b + 1) * binadeSize + t) % binadeSize = t := by
      simp only [binadeSize] at *
      omega
    rw [unitsOfRank, if_neg hnot, hdiv, hmod, Nat.add_sub_cancel]
  rcases Nat.lt_or_eq_of_le h with hlt | rfl
  · exact hinside binade offset hlt
  · -- the end of the binade is the first value of the next one
    have hnext := hinside (binade + 1) 0 (by decide)
    have hrank : (binade + 1) * binadeSize + binadeSize = (binade + 1 + 1) * binadeSize + 0 := by
      ring
    have hpow : Nat.pow 2 (binade + 1) = Nat.pow 2 binade * 2 := rfl
    rw [hrank, hnext, hpow]
    ring

theorem exists_binade {rank : Nat} (h : binadeSize ≤ rank) :
    ∃ binade offset, offset < binadeSize ∧ rank = (binade + 1) * binadeSize + offset := by
  refine ⟨rank / binadeSize - 1, rank % binadeSize, Nat.mod_lt _ (by decide), ?_⟩
  simp only [binadeSize] at *
  omega

theorem unitsOfRank_lt_succ (rank : Nat) : unitsOfRank rank < unitsOfRank (rank + 1) := by
  by_cases hsmall : rank < binadeSize
  · have hrank : unitsOfRank rank = rank := by rw [unitsOfRank, if_pos hsmall]
    by_cases hnext : rank + 1 < binadeSize
    · rw [hrank, unitsOfRank, if_pos hnext]
      omega
    · -- the first binade of normal numbers steps by one unit as well
      have heq : rank + 1 = (0 + 1) * binadeSize + 0 := by omega
      rw [hrank, heq, unitsOfRank_binade (Nat.zero_le _)]
      have hpow : Nat.pow 2 0 = 1 := rfl
      rw [hpow]
      omega
  · rcases exists_binade (Nat.not_lt.1 hsmall) with ⟨binade, offset, hoffset, rfl⟩
    rw [unitsOfRank_binade (Nat.le_of_lt hoffset), Nat.add_assoc, unitsOfRank_binade hoffset]
    exact Nat.mul_lt_mul_of_pos_right (by omega) (Nat.pow_pos (by decide))

theorem unitsOfRank_strictMono : StrictMono unitsOfRank :=
  strictMono_nat_of_lt_succ unitsOfRank_lt_succ

/-! ### The greatest rank that is not too large -/

theorem floorRank_of_lt {units : Nat} (h : units < 2 * binadeSize) :
    floorRank units = units ∧ unitsOfRank units = units := by
  constructor
  · have hlog : units.log2 - 52 = 0 := by
      by_cases hzero : units = 0
      · rw [hzero]
        rfl
      · have := (Nat.log2_lt hzero (k := 53)).2 h
        omega
    rw [floorRank, hlog]
    have hpow : Nat.pow 2 0 = 1 := rfl
    rw [hpow]
    omega
  · by_cases hsmall : units < binadeSize
    · rw [unitsOfRank, if_pos hsmall]
    · have heq : units = (0 + 1) * binadeSize + (units - binadeSize) := by omega
      have hle : units - binadeSize ≤ binadeSize := by omega
      have hpow : Nat.pow 2 0 = 1 := rfl
      rw [heq, unitsOfRank_binade (by omega), hpow]
      omega

/-- From the second binade on, the leading 53 binary digits are those of a value. -/
theorem floorRank_of_ge {units : Nat} (h : 2 * binadeSize ≤ units) :
    ∃ binade offset, offset < binadeSize ∧ floorRank units = (binade + 1) * binadeSize + offset ∧
      units / Nat.pow 2 binade = binadeSize + offset := by
  have hzero : units ≠ 0 := by
    rintro rfl
    exact absurd h (by decide)
  have hlog : 53 ≤ units.log2 := (Nat.le_log2 hzero).2 h
  have hlow : binadeSize * Nat.pow 2 (units.log2 - 52) ≤ units := by
    calc binadeSize * Nat.pow 2 (units.log2 - 52)
        = 2 ^ (52 + (units.log2 - 52)) := by rw [Nat.pow_add]; rfl
      _ = 2 ^ units.log2 := by rw [Nat.add_sub_cancel' (by omega)]
      _ ≤ units := Nat.log2_self_le hzero
  have hhigh : units < 2 * binadeSize * Nat.pow 2 (units.log2 - 52) := by
    calc units < 2 ^ (units.log2 + 1) := Nat.lt_log2_self
      _ = 2 ^ (53 + (units.log2 - 52)) := by
        have heq : units.log2 + 1 = 53 + (units.log2 - 52) := by omega
        rw [heq]
      _ = 2 * binadeSize * Nat.pow 2 (units.log2 - 52) := by rw [Nat.pow_add]; rfl
  have hpos : 0 < Nat.pow 2 (units.log2 - 52) := Nat.pow_pos (by decide)
  have hge := (Nat.le_div_iff_mul_le hpos).2 hlow
  have hlt := (Nat.div_lt_iff_lt_mul hpos).2 hhigh
  refine ⟨units.log2 - 52, units / Nat.pow 2 (units.log2 - 52) - binadeSize, by omega, ?_, by omega⟩
  rw [floorRank, Nat.add_mul]
  omega

theorem unitsOfRank_floorRank_le (units : Nat) : unitsOfRank (floorRank units) ≤ units := by
  by_cases hsmall : units < 2 * binadeSize
  · rcases floorRank_of_lt hsmall with ⟨hfloor, hunits⟩
    rw [hfloor, hunits]
  · rcases floorRank_of_ge (Nat.not_lt.1 hsmall) with ⟨binade, offset, hoffset, hfloor, hdiv⟩
    rw [hfloor, unitsOfRank_binade (Nat.le_of_lt hoffset), ← hdiv]
    exact Nat.div_mul_le_self units _

theorem lt_unitsOfRank_floorRank_succ (units : Nat) :
    units < unitsOfRank (floorRank units + 1) := by
  by_cases hsmall : units < 2 * binadeSize
  · rcases floorRank_of_lt hsmall with ⟨hfloor, hunits⟩
    have hlt := unitsOfRank_lt_succ units
    rw [hunits] at hlt
    rwa [hfloor]
  · rcases floorRank_of_ge (Nat.not_lt.1 hsmall) with ⟨binade, offset, hoffset, hfloor, hdiv⟩
    have hsucc : binadeSize + (offset + 1) = units / Nat.pow 2 binade + 1 := by omega
    rw [hfloor, Nat.add_assoc, unitsOfRank_binade hoffset, hsucc]
    exact Nat.lt_mul_of_div_lt (Nat.lt_succ_self _) (Nat.pow_pos (by decide))

theorem floorRank_unitsOfRank (rank : Nat) : floorRank (unitsOfRank rank) = rank := by
  have hle := unitsOfRank_strictMono.le_iff_le.1 (unitsOfRank_floorRank_le (unitsOfRank rank))
  have hlt := unitsOfRank_strictMono.lt_iff_lt.1
    (lt_unitsOfRank_floorRank_succ (unitsOfRank rank))
  omega

/-! ### Rounding -/

/-- A ratio that is the value of a magnitude is rounded to it. -/
theorem nearest_of_eq {numerator denominator : Nat} (m : Magnitude) (hpos : 0 < denominator)
    (h : numerator * Nat.pow 2 unitExponent = m.units * denominator) :
    nearest numerator denominator = m := by
  have hlow : floorRank (numerator * Nat.pow 2 unitExponent / denominator) = m.rank := by
    rw [h, Nat.mul_div_cancel _ hpos]
    exact floorRank_unitsOfRank m.rank
  have hkept : roundsUp numerator denominator m.rank = false := by
    have hgap : m.units * denominator < unitsOfRank (m.rank + 1) * denominator :=
      Nat.mul_lt_mul_of_pos_right (unitsOfRank_lt_succ m.rank) hpos
    have hmid : (unitsOfRank m.rank + unitsOfRank (m.rank + 1)) * denominator =
        m.units * denominator + unitsOfRank (m.rank + 1) * denominator :=
      Nat.add_mul _ _ _
    simp only [roundsUp, h, hmid, Bool.or_eq_false_iff, Bool.and_eq_false_iff,
      decide_eq_false_iff_not]
    omega
  unfold nearest
  simp only [hlow, hkept]
  -- infinity is the one rank that is not compared with its successor
  by_cases hfinite : m.rank < infiniteRank
  · rw [dif_pos hfinite]
    rfl
  · rw [dif_neg hfinite]
    exact Magnitude.ext_rank (Nat.le_antisymm (Nat.not_lt.1 hfinite) m.rank_le)

theorem nearest_mul_mul {factor : Nat} (h : 0 < factor) (numerator denominator : Nat) :
    nearest (factor * numerator) (factor * denominator) = nearest numerator denominator := by
  have hratio : factor * numerator * Nat.pow 2 unitExponent / (factor * denominator) =
      numerator * Nat.pow 2 unitExponent / denominator := by
    rw [Nat.mul_assoc, Nat.mul_div_mul_left _ _ h]
  have hrounds : ∀ rank : Nat, roundsUp (factor * numerator) (factor * denominator) rank =
      roundsUp numerator denominator rank := by
    intro rank
    have hup : 2 * (factor * numerator * Nat.pow 2 unitExponent) =
        factor * (2 * (numerator * Nat.pow 2 unitExponent)) := by ring
    have hmid : (unitsOfRank rank + unitsOfRank (rank + 1)) * (factor * denominator) =
        factor * ((unitsOfRank rank + unitsOfRank (rank + 1)) * denominator) := by ring
    simp only [roundsUp, hup, hmid, Nat.mul_lt_mul_left h, Nat.mul_right_inj (Nat.ne_of_gt h)]
  unfold nearest
  simp only [hratio, hrounds]

theorem nearest_of_lt {numerator denominator : Nat}
    (h : 2 * (numerator * Nat.pow 2 unitExponent) < denominator) :
    nearest numerator denominator = Magnitude.zero := by
  have hlow : floorRank (numerator * Nat.pow 2 unitExponent / denominator) = 0 := by
    rw [Nat.div_eq_of_lt (by omega)]
    rfl
  have hkept : roundsUp numerator denominator 0 = false := by
    have hmid : (unitsOfRank 0 + unitsOfRank (0 + 1)) * denominator = denominator := by
      have hone : unitsOfRank 0 + unitsOfRank (0 + 1) = 1 := by decide
      rw [hone, Nat.one_mul]
    simp only [roundsUp, hmid, Bool.or_eq_false_iff, Bool.and_eq_false_iff,
      decide_eq_false_iff_not]
    omega
  unfold nearest
  simp only [hlow, hkept]
  rfl

end Binary64

end StoreCommand
