import Mathlib
import ShareCovenant.Crypto.Curve

/-!
# Field arithmetic on natural numbers

The operations on reduced numbers are those of the field of integers modulo the field prime. As the prime
is 3 modulo 4, of two opposite numbers other than zero exactly one is a square, and the power that
`fieldSqrt` takes is a root of each square.
-/

namespace ShareCovenant

/-- Repeated squaring computes the power. -/
theorem powMod_eq (m b e : Nat) : powMod m b e = b ^ e % m := by
  induction e using Nat.strongRecOn generalizing b with
  | ind e ih =>
      rw [powMod]
      by_cases h0 : e = 0
      · rw [if_pos h0, h0, pow_zero]
      · have hhalf : powMod m (b * b % m) (e / 2) = b ^ (2 * (e / 2)) % m := by
          rw [ih _ (by omega), ← Nat.pow_mod, pow_mul, sq]
        rw [if_neg h0, hhalf]
        dsimp only
        split_ifs with hodd
        · rw [Nat.mul_mod_mod, ← pow_succ']
          congr 2
          omega
        · congr 2
          omega

theorem powMod_lt {m : Nat} (h : 0 < m) (b e : Nat) : powMod m b e < m := by
  rw [powMod_eq]
  exact Nat.mod_lt _ h

namespace Curve

variable (c : Curve) [Fact c.fieldPrime.Prime]

/-! ## Reduced numbers -/

theorem fieldPrime_pos : 0 < c.fieldPrime := (Fact.out : c.fieldPrime.Prime).pos

theorem mod_lt (a : Nat) : a % c.fieldPrime < c.fieldPrime := Nat.mod_lt _ c.fieldPrime_pos

/-- Two reduced numbers are equal if they are the same element of the field. -/
theorem eq_of_natCast_eq {a b : Nat} (ha : a < c.fieldPrime) (hb : b < c.fieldPrime)
    (h : (a : ZMod c.fieldPrime) = b) : a = b := by
  rw [ZMod.natCast_eq_natCast_iff', Nat.mod_eq_of_lt ha, Nat.mod_eq_of_lt hb] at h
  exact h

theorem natCast_eq_zero_iff {a : Nat} (ha : a < c.fieldPrime) : (a : ZMod c.fieldPrime) = 0 ↔ a = 0 := by
  constructor
  · intro h
    exact c.eq_of_natCast_eq ha c.fieldPrime_pos (by rw [h, Nat.cast_zero])
  · rintro rfl
    exact Nat.cast_zero

theorem fieldSub_lt (a b : Nat) : c.fieldSub a b < c.fieldPrime := c.mod_lt _

theorem natCast_fieldSub {a b : Nat} (hb : b ≤ c.fieldPrime) :
    (c.fieldSub a b : ZMod c.fieldPrime) = a - b := by
  rw [fieldSub, ZMod.natCast_mod, Nat.cast_add, Nat.cast_sub hb, ZMod.natCast_self]
  ring

theorem natCast_powMod (a e : Nat) : (powMod c.fieldPrime a e : ZMod c.fieldPrime) = (a : ZMod c.fieldPrime) ^ e := by
  rw [powMod_eq, ZMod.natCast_mod, Nat.cast_pow]

theorem natCast_fieldInv (h : 2 < c.fieldPrime) (a : Nat) :
    (c.fieldInv a : ZMod c.fieldPrime) = (a : ZMod c.fieldPrime)⁻¹ := by
  rw [fieldInv, natCast_powMod]
  by_cases ha : (a : ZMod c.fieldPrime) = 0
  · rw [ha, inv_zero, zero_pow (by omega)]
  · apply eq_inv_of_mul_eq_one_left
    rw [← pow_succ, show c.fieldPrime - 2 + 1 = c.fieldPrime - 1 by omega]
    exact ZMod.pow_card_sub_one_eq_one ha

/-! ## Squares -/

theorem isResidue_iff (h : 2 < c.fieldPrime) (a : Nat) :
    c.isResidue a = true ↔ (a : ZMod c.fieldPrime) ≠ 0 ∧ IsSquare (a : ZMod c.fieldPrime) := by
  have hodd : (c.fieldPrime - 1) / 2 = c.fieldPrime / 2 := by
    have := (Fact.out : c.fieldPrime.Prime).eq_two_or_odd
    omega
  have hone : 1 < c.fieldPrime := by omega
  have hpow : c.isResidue a = true ↔ (a : ZMod c.fieldPrime) ^ (c.fieldPrime / 2) = 1 := by
    rw [isResidue, beq_iff_eq, hodd, ← natCast_powMod]
    constructor
    · intro h1
      rw [h1, Nat.cast_one]
    · intro h1
      exact c.eq_of_natCast_eq (powMod_lt c.fieldPrime_pos _ _) hone (by rw [h1, Nat.cast_one])
  rw [hpow]
  by_cases ha : (a : ZMod c.fieldPrime) = 0
  · rw [ha, zero_pow (by omega)]
    simp
  · rw [ZMod.euler_criterion _ ha]
    simp [ha]

variable {c}

/-- The opposite of a square is no square. -/
theorem not_isSquare_neg (h : c.fieldPrime % 4 = 3) {a : ZMod c.fieldPrime} (ha : a ≠ 0) (hsq : IsSquare a) :
    ¬IsSquare (-a) := by
  intro hneg
  have hone : IsSquare (-1 : ZMod c.fieldPrime) := by
    have := hneg.div hsq
    rwa [neg_div, div_self ha] at this
  exact ZMod.exists_sq_eq_neg_one_iff.1 hone h

/-- Of two opposite numbers, one is a square. -/
theorem isSquare_or_isSquare_neg (h : c.fieldPrime % 4 = 3) (a : ZMod c.fieldPrime) :
    IsSquare a ∨ IsSquare (-a) := by
  by_cases ha : a = 0
  · exact Or.inl (ha ▸ IsSquare.zero)
  · have hodd : c.fieldPrime / 2 = 2 * (c.fieldPrime / 4) + 1 := by omega
    rw [ZMod.euler_criterion _ ha, ZMod.euler_criterion _ (neg_ne_zero.2 ha), hodd]
    have hsq := ZMod.pow_div_two_eq_neg_one_or_one c.fieldPrime ha
    rw [hodd] at hsq
    rcases hsq with h1 | h1
    · exact Or.inl h1
    · right
      rw [neg_pow, h1, pow_succ, pow_mul]
      simp

/-- The power that is taken for a square root is a root of each square. -/
theorem natCast_fieldSqrt_sq (h : c.fieldPrime % 4 = 3) {a : Nat} (hsq : IsSquare (a : ZMod c.fieldPrime)) :
    (c.fieldSqrt a : ZMod c.fieldPrime) * c.fieldSqrt a = a := by
  obtain ⟨y, hy⟩ := hsq
  rw [fieldSqrt, natCast_powMod, hy]
  by_cases h0 : y = 0
  · rw [h0, mul_zero, zero_pow (by omega), mul_zero]
  · rw [← pow_add, ← pow_two, ← pow_mul,
      show 2 * ((c.fieldPrime + 1) / 4 + (c.fieldPrime + 1) / 4) = (c.fieldPrime - 1) + 2 by omega, pow_add,
      ZMod.pow_card_sub_one_eq_one h0, one_mul]

end Curve

end ShareCovenant
