/-!
# Binary floating point with 64 bits

Numbers of the floating-point format binary64 as exact values.  The non-negative ones, from zero
through the subnormal and normal numbers up to infinity, are numbered in increasing order; this
number is their *rank*, and it is also how the format encodes them.  All finite values are whole
multiples of the smallest positive one, so a magnitude is measured in that unit by a natural number
and nothing is ever rounded unless a definition says so.

Only one not-a-number is kept apart: its sign and payload cannot be observed in the language.
-/

namespace StoreCommand

namespace Binary64

/-! ### Magnitudes -/

/-- The finite values are multiples of two to the power minus this. -/
def unitExponent : Nat := 1074

/-- The number of values in a binade: two to the power 52. -/
def binadeSize : Nat := 0x10000000000000

/-- The rank of infinity: 2047 binades lie below it. -/
def infiniteRank : Nat := 2047 * binadeSize

def signWeight : Nat := 0x8000000000000000

/-- A non-negative value, given by its rank. -/
structure Magnitude where
  rank : Nat
  rank_le : rank ≤ infiniteRank
  deriving DecidableEq, Repr

/-- The value of a rank in units.  The first two binades step by one unit, each later one by twice
    the step before.  Infinity counts as the power of two that would come after the finite
    values. -/
def unitsOfRank (rank : Nat) : Nat :=
  if rank < binadeSize then rank
  else (binadeSize + rank % binadeSize) * Nat.pow 2 (rank / binadeSize - 1)

namespace Magnitude

def zero : Magnitude := ⟨0, Nat.zero_le _⟩

def infinite : Magnitude := ⟨infiniteRank, Nat.le_refl _⟩

def units (m : Magnitude) : Nat :=
  unitsOfRank m.rank

theorem ext_rank {a b : Magnitude} (h : a.rank = b.rank) : a = b := by
  cases a
  cases b
  simpa using h

end Magnitude

end Binary64

/-! ### Numbers -/

/-- A binary64 number: a sign and a magnitude, or the one not-a-number. -/
inductive Binary64 where
  | nan
  | number (negative : Bool) (magnitude : Binary64.Magnitude)
  deriving DecidableEq, Repr

namespace Binary64

def isFinite : Binary64 → Bool
  | nan => false
  | number _ m => decide (m ≠ Magnitude.infinite)

/-- Numerical equality: not-a-number differs from everything, itself included, and the two zeros are
    equal. -/
def same : Binary64 → Binary64 → Bool
  | number s a, number t b => decide (a = b) && (s == t || decide (a = Magnitude.zero))
  | _, _ => false

/-! ### Encoding -/

/-- The 64 bits of a number: its sign, then its rank. -/
def toBits : Binary64 → UInt64
  | nan => 0x7FF8000000000000
  | number negative m => UInt64.ofNat ((if negative then signWeight else 0) + m.rank)

/-- The number with these 64 bits; every rank past infinity is not-a-number. -/
def ofBits (bits : UInt64) : Binary64 :=
  if h : bits.toNat % signWeight ≤ infiniteRank then
    number (decide (signWeight ≤ bits.toNat)) ⟨bits.toNat % signWeight, h⟩
  else nan

theorem rank_lt_signWeight (m : Magnitude) : m.rank < signWeight :=
  Nat.lt_of_le_of_lt m.rank_le (by decide)

theorem ofBits_toBits (x : Binary64) : ofBits x.toBits = x := by
  cases x with
  | nan => decide
  | number negative m =>
    have hrank := rank_lt_signWeight m
    have hbits : (number negative m).toBits.toNat =
        (if negative then signWeight else 0) + m.rank := by
      simp only [toBits, UInt64.toNat_ofNat', signWeight] at *
      cases negative <;> simp <;> omega
    have hmod : (number negative m).toBits.toNat % signWeight = m.rank := by
      rw [hbits]
      cases negative <;> simp [Nat.mod_eq_of_lt hrank]
    have hsign : decide (signWeight ≤ (number negative m).toBits.toNat) = negative := by
      rw [hbits]
      cases negative <;> simp [hrank]
    unfold ofBits
    rw [dif_pos (by rw [hmod]; exact m.rank_le), hsign]
    exact congrArg (number negative) (Magnitude.ext_rank hmod)

end Binary64

end StoreCommand
