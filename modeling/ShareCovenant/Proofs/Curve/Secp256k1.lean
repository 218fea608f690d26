import Mathlib
import ShareCovenant.Proofs.Curve.PrimeOrder

/-!
# The curve of signatures has prime order

The field prime and the order of secp256k1 are prime by Lucas's test, applied down to factors that trial
division settles. The base point has that order. As every x has at most two points, the number of points is
the order or twice the order, and it is odd because no point lies on the x axis: the opposite of the
coefficient is no cube.
-/

namespace ShareCovenant

/-! ## Primality -/

/-- A witness of Lucas's test of a number, and the prime factors of the number before it. -/
structure LucasCertificate where
  number : Nat
  witness : Nat
  factors : List Nat

namespace LucasCertificate

/-- Lucas's test. -/
def Passes (l : LucasCertificate) : Prop :=
  1 < l.number ∧ l.factors.prod = l.number - 1 ∧ powMod l.number l.witness (l.number - 1) = 1 ∧
    ∀ q ∈ l.factors, powMod l.number l.witness ((l.number - 1) / q) ≠ 1

instance (l : LucasCertificate) : Decidable l.Passes := inferInstanceAs (Decidable (_ ∧ _))

theorem Passes.prime {l : LucasCertificate} (h : l.Passes) (hprime : ∀ q ∈ l.factors, q.Prime) :
    l.number.Prime := by
  obtain ⟨hone, hprod, hpow, hfactors⟩ := h
  have hcast : ∀ e, (l.witness : ZMod l.number) ^ e = 1 ↔ powMod l.number l.witness e = 1 := by
    intro e
    rw [powMod_eq, ← Nat.cast_pow, ← Nat.cast_one, ZMod.natCast_eq_natCast_iff', Nat.one_mod_eq_one.2 hone.ne']
  refine lucas_primality l.number l.witness ((hcast _).2 hpow) ?_
  intro q hq hdvd
  rw [← hprod] at hdvd
  obtain ⟨r, hr, hqr⟩ := (Prime.dvd_prod_iff hq.prime).1 hdvd
  rw [(Nat.prime_dvd_prime_iff_eq hq (hprime r hr)).1 hqr, Ne, hcast]
  exact hfactors r hr

/-- Each certificate passes, and its factors are among known primes and the numbers certified before. -/
def AllPass : List Nat → List LucasCertificate → Prop
  | _, [] => True
  | known, l :: ls => l.Passes ∧ l.factors ⊆ known ∧ AllPass (l.number :: known) ls

instance decidableAllPass : (known : List Nat) → (ls : List LucasCertificate) → Decidable (AllPass known ls)
  | _, [] => .isTrue trivial
  | known, l :: ls =>
      have := decidableAllPass (l.number :: known) ls
      inferInstanceAs (Decidable (_ ∧ _ ∧ _))

theorem AllPass.prime {known : List Nat} {ls : List LucasCertificate} (h : AllPass known ls)
    (hknown : ∀ q ∈ known, q.Prime) : ∀ l ∈ ls, l.number.Prime := by
  induction ls generalizing known with
  | nil => simp
  | cons l ls ih =>
      obtain ⟨hpasses, hfactors, hrest⟩ := h
      have hl := hpasses.prime fun q hq => hknown q (hfactors hq)
      intro l' hl'
      rcases List.mem_cons.1 hl' with rfl | hl'
      · exact hl
      · refine ih hrest ?_ l' hl'
        intro q hq
        rcases List.mem_cons.1 hq with rfl | hq
        · exact hl
        · exact hknown q hq

end LucasCertificate

namespace Curve.Secp256k1

/-- The prime factors that trial division settles. -/
def smallPrimes : List Nat :=
  [2, 3, 5, 7, 11, 17, 29, 31, 41, 53, 59, 109, 149, 293, 461, 631, 1627, 2621, 2657, 4051, 4423,
   5323, 7723, 13441, 16699, 24809, 28181, 41201, 85831, 96557, 120233, 305873, 1627771, 4681609,
   7240687, 13331831, 44706919]

theorem prime_of_mem_smallPrimes : ∀ q ∈ smallPrimes, q.Prime := by
  norm_num [smallPrimes]

/-- The order and the field prime after their larger prime factors. -/
def certificates : List LucasCertificate :=
  [ { number := 107590001, witness := 3, factors := [2, 2, 2, 2, 5, 5, 5, 5, 7, 29, 53] },
    { number := 545358713, witness := 5, factors := [2, 2, 2, 41, 59, 28181] },
    { number := 297159362677, witness := 2, factors := [2, 2, 3, 3, 11, 461, 1627771] },
    { number := 29047611873442575647497758179
      witness := 2
      factors := [2, 293, 305873, 545358713, 297159362677] },
    { number := 341948486974166000522343609283189
      witness := 2
      factors := [2, 2, 3, 3, 3, 109, 29047611873442575647497758179] },
    { number := 107361793816595537, witness := 3, factors := [2, 2, 2, 2, 16699, 85831, 4681609] },
    { number := 174723607534414371449, witness := 3, factors := [2, 2, 2, 17, 59, 4051, 120233, 44706919] },
    { number := secp256k1.order
      witness := 7
      factors := [2, 2, 2, 2, 2, 2, 3, 149, 631, 107361793816595537, 174723607534414371449,
        341948486974166000522343609283189] },
    { number := 255515944373312847190720520512484175977
      witness := 3
      factors := [2, 2, 2, 7, 7, 11, 1627, 2657, 4423, 41201, 96557, 7240687, 107590001] },
    { number := 173378833005251801, witness := 6, factors := [2, 2, 2, 5, 5, 2621, 24809, 13331831] },
    { number := 22149492674086928081353, witness := 5, factors := [2, 2, 2, 3, 5323, 173378833005251801] },
    { number := 132896956044521568488119, witness := 6, factors := [2, 3, 22149492674086928081353] },
    { number := 205115282021455665897114700593932402728804164701536103180137503955397371
      witness := 10
      factors := [2, 3, 5, 29, 29, 31, 7723, 132896956044521568488119, 255515944373312847190720520512484175977] },
    { number := secp256k1.fieldPrime
      witness := 3
      factors := [2, 3, 7, 13441, 205115282021455665897114700593932402728804164701536103180137503955397371] } ]

theorem allPass_certificates : LucasCertificate.AllPass smallPrimes certificates := by
  decide +kernel

theorem prime_of_mem_certificates : ∀ l ∈ certificates, l.number.Prime :=
  allPass_certificates.prime prime_of_mem_smallPrimes

theorem prime_order : secp256k1.order.Prime :=
  prime_of_mem_certificates _ (List.mem_of_getElem? (show certificates[7]? = some _ from rfl))

theorem prime_fieldPrime : secp256k1.fieldPrime.Prime :=
  prime_of_mem_certificates _ (List.mem_of_getElem? (show certificates[13]? = some _ from rfl))

end Curve.Secp256k1

/-! ## Counting points -/

namespace Curve

open WeierstrassCurve.Affine

variable {c : Curve} [Fact c.fieldPrime.Prime]

/-- The x of a point and the parity of its y. -/
def abscissa : c.weierstrass.Point → Option (ZMod c.fieldPrime × Bool)
  | .zero => none
  | .some x y _ => some (x, y.val % 2 == 0)

theorem abscissa_injective (hodd : c.fieldPrime % 2 = 1) :
    Function.Injective (abscissa : c.weierstrass.Point → _) := by
  intro P Q h
  match P, Q with
  | .zero, .zero => rfl
  | .zero, .some x y h' => cases h
  | .some x y h', .zero => cases h
  | .some x y hP, .some x' y' hQ =>
      simp only [abscissa, Option.some.injEq, Prod.mk.injEq] at h
      obtain ⟨rfl, hparity⟩ := h
      have hsame : y = y' := by
        rcases Y_eq_of_X_eq hP.1 hQ.1 rfl with hy | hy
        · exact hy
        · by_contra hne
          rw [negY_eq] at hy
          have hy' : y' ≠ 0 := by
            rintro rfl
            exact hne (by rw [hy, neg_zero])
          have hval : y.val = c.fieldPrime - y'.val := by rw [hy, ZMod.neg_val, if_neg hy']
          have hlt := ZMod.val_lt y'
          rw [Bool.eq_iff_iff, beq_iff_eq, beq_iff_eq] at hparity
          omega
      subst hsame
      rfl

theorem finite_points (hodd : c.fieldPrime % 2 = 1) : Finite c.weierstrass.Point :=
  Finite.of_injective _ (abscissa_injective hodd)

theorem card_points_le (hodd : c.fieldPrime % 2 = 1) : Nat.card c.weierstrass.Point ≤ 2 * c.fieldPrime + 1 := by
  have hle := Nat.card_le_card_of_injective _ (abscissa_injective (c := c) hodd)
  rw [Nat.card_eq_fintype_card (α := Option _), Fintype.card_option, Fintype.card_prod, ZMod.card,
    Fintype.card_bool] at hle
  omega

/-- If the opposite of the coefficient is no cube, no point is its own opposite. -/
theorem two_nsmul_ne_zero (hthree : c.fieldPrime % 3 = 1) (hodd : c.fieldPrime % 2 = 1)
    (hb : (c.coefficient : ZMod c.fieldPrime) ≠ 0)
    (hcube : (-(c.coefficient : ZMod c.fieldPrime)) ^ ((c.fieldPrime - 1) / 3) ≠ 1)
    {P : c.weierstrass.Point} (h : P ≠ 0) : 2 • P ≠ 0 := by
  intro htwo
  match P, h with
  | .some x y hxy, _ =>
      have hneg : Point.some x y hxy = -Point.some x y hxy := by
        rw [← add_eq_zero_iff_eq_neg, ← two_nsmul]
        exact htwo
      rw [Point.neg_some, Point.some.injEq] at hneg
      have hy : y = 0 := by
        have hself : y = -y := by rw [← negY_eq x y]; exact hneg.2
        have := (ZMod.neg_eq_self_iff y).1 hself.symm
        rcases this with h0 | h0
        · exact h0
        · omega
      have heq := (equation_iff x y).1 hxy.1
      have hx : x ≠ 0 := by
        rintro rfl
        apply hb
        rw [hy] at heq
        simpa using heq.symm
      apply hcube
      have hneg' : -(c.coefficient : ZMod c.fieldPrime) = x ^ 3 := by
        rw [hy] at heq
        linear_combination heq
      rw [hneg', ← pow_mul, show 3 * ((c.fieldPrime - 1) / 3) = c.fieldPrime - 1 by omega]
      exact ZMod.pow_card_sub_one_eq_one hx

/-- A point of prime order that is more than a third of the number of possible points, and no point that is
its own opposite: then all points have that order. -/
theorem order_nsmul_eq_zero {n : Nat} (hn : n.Prime) (hlarge : 2 * c.fieldPrime + 1 < 3 * n)
    (hodd : c.fieldPrime % 2 = 1) {G : c.weierstrass.Point} (hG : G ≠ 0) (hnG : n • G = 0)
    (htwo : ∀ P : c.weierstrass.Point, P ≠ 0 → 2 • P ≠ 0) (P : c.weierstrass.Point) : n • P = 0 := by
  have := finite_points (c := c) hodd
  have := Fact.mk hn
  have hdvd : n ∣ Nat.card c.weierstrass.Point := by
    rw [← addOrderOf_eq_prime hnG hG]
    exact addOrderOf_dvd_natCard G
  have hle := card_points_le (c := c) hodd
  have hpos : 0 < Nat.card c.weierstrass.Point := Nat.card_pos
  obtain ⟨k, hk⟩ := hdvd
  have hk3 : k < 3 := by
    by_contra hge
    have : n * 3 ≤ n * k := Nat.mul_le_mul_left n (by omega)
    omega
  have hcard : Nat.card c.weierstrass.Point = n := by
    interval_cases k
    · omega
    · omega
    · exfalso
      have := Fact.mk Nat.prime_two
      obtain ⟨Q, hQ⟩ := exists_prime_addOrderOf_dvd_card' (G := c.weierstrass.Point) 2 (by omega)
      have hQ0 : Q ≠ 0 := by
        rintro rfl
        rw [addOrderOf_zero] at hQ
        omega
      exact htwo Q hQ0 (hQ ▸ addOrderOf_nsmul_eq_zero Q)
  rw [← hcard]
  exact card_nsmul_eq_zero'

/-- The curve of signatures is a curve of prime order. -/
theorem primeOrder_secp256k1 : secp256k1.PrimeOrder := by
  have := Fact.mk Secp256k1.prime_fieldPrime
  have hb : (secp256k1.coefficient : ZMod secp256k1.fieldPrime) ≠ 0 := by
    rw [Ne, ZMod.natCast_eq_zero_iff]
    decide +kernel
  have hbase : secp256k1.Contains secp256k1.base := by decide +kernel
  obtain ⟨G, hG⟩ := (contains_iff (by decide +kernel) hb _).1 hbase
  have hG0 : G ≠ 0 := mt coordinates_eq_infinity_iff.2 (by rw [hG]; nofun)
  have hnG : secp256k1.order • G = 0 := by
    rw [← coordinates_eq_infinity_iff, coordinates_nsmul (by decide +kernel), hG]
    decide +kernel
  have hcube : (-(secp256k1.coefficient : ZMod secp256k1.fieldPrime)) ^ ((secp256k1.fieldPrime - 1) / 3) ≠ 1 := by
    have hpow : powMod secp256k1.fieldPrime (secp256k1.fieldPrime - secp256k1.coefficient)
        ((secp256k1.fieldPrime - 1) / 3) ≠ 1 := by decide +kernel
    have hneg : ((secp256k1.fieldPrime - secp256k1.coefficient : Nat) : ZMod secp256k1.fieldPrime) =
        -(secp256k1.coefficient : ZMod secp256k1.fieldPrime) := by
      rw [Nat.cast_sub (by decide +kernel), ZMod.natCast_self, zero_sub]
    rw [← hneg, ← natCast_powMod, ← Nat.cast_one]
    intro h1
    exact hpow (secp256k1.eq_of_natCast_eq (powMod_lt (by decide +kernel) _ _) (by decide +kernel) h1)
  exact {
    prime := Secp256k1.prime_fieldPrime
    mod_four := by decide +kernel
    three_lt := by decide +kernel
    fieldPrime_lt := by decide +kernel
    coefficient := by decide +kernel
    order_prime := Secp256k1.prime_order
    two_lt_order := by decide +kernel
    order_lt := by decide +kernel
    contains_base := hbase
    smul_order := by
      intro p hp
      obtain ⟨P, rfl⟩ := (contains_iff (by decide +kernel) hb p).1 hp
      rw [← coordinates_nsmul (by decide +kernel), order_nsmul_eq_zero Secp256k1.prime_order (by decide +kernel)
        (by decide +kernel) hG0 hnG fun P => two_nsmul_ne_zero (by decide +kernel) (by decide +kernel) hb hcube,
        coordinates_zero]
  }

end Curve

end ShareCovenant
