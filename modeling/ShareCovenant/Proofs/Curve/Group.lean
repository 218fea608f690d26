import Mathlib
import ShareCovenant.Proofs.Curve.Field

/-!
# The group of a curve

The points of a curve are those of a Weierstrass curve over the field, and adding, negating and multiplying
them are the operations of its group. Multiples are followed through Jacobian coordinates, of which each
triple stands for one point (`Jacobian.Represents`).
-/

namespace ShareCovenant.Curve

open WeierstrassCurve.Affine

variable (c : Curve) [Fact c.fieldPrime.Prime]

/-! ## Points as pairs of numbers -/

/-- The curve over the integers modulo the field prime. -/
def weierstrass : WeierstrassCurve.Affine (ZMod c.fieldPrime) where
  a₁ := 0
  a₂ := 0
  a₃ := 0
  a₄ := 0
  a₆ := c.coefficient

/-- The reduced coordinates of a point. -/
def coordinates : c.weierstrass.Point → ShareCovenant.Point
  | .zero => .infinity
  | .some x y _ => .affine x.val y.val

variable {c}

@[simp] theorem coordinates_zero : c.coordinates 0 = .infinity := rfl

theorem coordinates_some {x y : ZMod c.fieldPrime} (h : c.weierstrass.Nonsingular x y) {a b : Nat}
    (ha : a < c.fieldPrime) (hb : b < c.fieldPrime) (hx : (a : ZMod c.fieldPrime) = x)
    (hy : (b : ZMod c.fieldPrime) = y) : c.coordinates (.some x y h) = .affine a b := by
  subst hx hy
  rw [coordinates, ZMod.val_cast_of_lt ha, ZMod.val_cast_of_lt hb]

theorem coordinates_injective : Function.Injective c.coordinates := by
  intro P Q h
  match P, Q with
  | .zero, .zero => rfl
  | .zero, .some x y h' => cases h
  | .some x y h', .zero => cases h
  | .some x y hP, .some x' y' hQ =>
      rw [coordinates, coordinates, ShareCovenant.Point.affine.injEq] at h
      obtain ⟨hx, hy⟩ := h
      cases ZMod.val_injective _ hx
      cases ZMod.val_injective _ hy
      rfl

theorem coordinates_eq_infinity_iff {P : c.weierstrass.Point} : c.coordinates P = .infinity ↔ P = 0 :=
  coordinates_injective.eq_iff' coordinates_zero

theorem equation_iff (x y : ZMod c.fieldPrime) :
    c.weierstrass.Equation x y ↔ y ^ 2 = x ^ 3 + c.coefficient := by
  rw [WeierstrassCurve.Affine.equation_iff]
  simp [weierstrass]

theorem negY_eq (x y : ZMod c.fieldPrime) : c.weierstrass.negY x y = -y := by
  simp [negY, weierstrass]

theorem natCast_two_ne_zero (hp : 3 < c.fieldPrime) : (2 : ZMod c.fieldPrime) ≠ 0 := by
  exact_mod_cast mt (c.natCast_eq_zero_iff (a := 2) (by omega)).1 (by decide)

/-- The curve has no singular point. -/
theorem nonsingular_iff (hp : 3 < c.fieldPrime) (hb : (c.coefficient : ZMod c.fieldPrime) ≠ 0)
    (x y : ZMod c.fieldPrime) : c.weierstrass.Nonsingular x y ↔ y ^ 2 = x ^ 3 + c.coefficient := by
  rw [WeierstrassCurve.Affine.nonsingular_iff, equation_iff]
  refine ⟨fun h => h.1, fun h => ⟨h, ?_⟩⟩
  by_contra hsingular
  rw [not_or, not_not, not_not] at hsingular
  obtain ⟨hx, hy⟩ := hsingular
  have htwo := natCast_two_ne_zero hp
  have hthree : (3 : ZMod c.fieldPrime) ≠ 0 := by
    exact_mod_cast mt (c.natCast_eq_zero_iff (a := 3) (by omega)).1 (by decide)
  simp only [weierstrass, zero_mul, mul_zero, add_zero, sub_zero] at hx hy
  have hy0 : y = 0 := by
    have : 2 * y = 0 := by linear_combination hy
    exact (mul_eq_zero.1 this).resolve_left htwo
  have hx0 : x = 0 := pow_eq_zero_iff (two_ne_zero) |>.1 ((mul_eq_zero.1 hx.symm).resolve_left hthree)
  rw [hy0, hx0] at h
  exact hb (by simpa using h.symm)

theorem natCast_cubic (x : Nat) : (c.cubic x : ZMod c.fieldPrime) = (x : ZMod c.fieldPrime) ^ 3 + c.coefficient := by
  simp only [cubic, ZMod.natCast_mod, Nat.cast_add, Nat.cast_mul]
  ring

/-- Containment is the equation of the curve for reduced coordinates. -/
theorem contains_affine_iff (x y : Nat) :
    c.Contains (.affine x y) ↔ x < c.fieldPrime ∧ y < c.fieldPrime ∧
      (y : ZMod c.fieldPrime) ^ 2 = (x : ZMod c.fieldPrime) ^ 3 + c.coefficient := by
  rw [Contains]
  refine and_congr_right fun hx => and_congr_right fun hy => ?_
  rw [← natCast_cubic, sq, ← Nat.cast_mul, ← ZMod.natCast_mod]
  constructor
  · intro h
    rw [h]
  · intro h
    exact c.eq_of_natCast_eq (c.mod_lt _) (c.mod_lt _) h

/-- The points of the curve are the coordinates of the points of the group. -/
theorem contains_iff (hp : 3 < c.fieldPrime) (hb : (c.coefficient : ZMod c.fieldPrime) ≠ 0)
    (p : ShareCovenant.Point) : c.Contains p ↔ ∃ P, c.coordinates P = p := by
  constructor
  · intro h
    match p, h with
    | .infinity, _ => exact ⟨0, rfl⟩
    | .affine x y, h =>
        obtain ⟨hx, hy, heq⟩ := (contains_affine_iff x y).1 h
        exact ⟨.some x y ((nonsingular_iff hp hb _ _).2 heq), coordinates_some _ hx hy rfl rfl⟩
  · rintro ⟨P, rfl⟩
    match P with
    | .zero => exact trivial
    | .some x y h =>
        rw [coordinates, contains_affine_iff]
        exact ⟨ZMod.val_lt x, ZMod.val_lt y, by
          simpa using (nonsingular_iff hp hb _ _).1 h⟩

/-! ## Negation and addition -/

theorem coordinates_neg (P : c.weierstrass.Point) : c.coordinates (-P) = c.neg (c.coordinates P) := by
  match P with
  | .zero => rfl
  | .some x y h =>
      rw [Point.neg_some]
      refine coordinates_some _ (ZMod.val_lt x) (c.mod_lt _) (by simp) ?_
      rw [ZMod.natCast_mod, Nat.cast_sub (ZMod.val_lt y).le, negY_eq]
      simp

/-- A chord meets the curve in the sum, up to sign. -/
theorem coordinates_chord {x y x₁ x₂ y₁ : ZMod c.fieldPrime} {slope : Nat}
    (hx : x = (slope : ZMod c.fieldPrime) ^ 2 - x₁ - x₂)
    (hy : y = (slope : ZMod c.fieldPrime) * (x₁ - x) - y₁) (h : c.weierstrass.Nonsingular x y) :
    c.coordinates (.some x y h) = c.chord slope x₁.val y₁.val x₂.val := by
  have hx₃ : (c.fieldSub (c.fieldSub (slope * slope % c.fieldPrime) x₁.val) x₂.val : ZMod c.fieldPrime) = x := by
    rw [c.natCast_fieldSub (ZMod.val_lt x₂).le, c.natCast_fieldSub (ZMod.val_lt x₁).le, ZMod.natCast_mod, hx]
    simp only [Nat.cast_mul, ZMod.natCast_val, ZMod.cast_id', id_eq]
    ring
  refine coordinates_some _ (c.fieldSub_lt _ _) (c.fieldSub_lt _ _) hx₃ ?_
  rw [c.natCast_fieldSub (ZMod.val_lt y₁).le, ZMod.natCast_mod, Nat.cast_mul,
    c.natCast_fieldSub (c.fieldSub_lt _ _).le, hx₃, hy]
  simp only [ZMod.natCast_val, ZMod.cast_id', id_eq]

theorem coordinates_add (hp : 2 < c.fieldPrime) (P Q : c.weierstrass.Point) :
    c.coordinates (P + Q) = c.add (c.coordinates P) (c.coordinates Q) := by
  match P, Q with
  | .zero, Q => exact congrArg c.coordinates (zero_add Q)
  | .some x y h, .zero => exact congrArg c.coordinates (add_zero _)
  | .some x₁ y₁ h₁, .some x₂ y₂ h₂ =>
      have hval : x₁.val = x₂.val ↔ x₁ = x₂ := (ZMod.val_injective _).eq_iff
      have hopposite : (y₁.val + y₂.val) % c.fieldPrime = 0 ↔ y₁ = c.weierstrass.negY x₂ y₂ := by
        rw [negY_eq, eq_neg_iff_add_eq_zero, ← Nat.dvd_iff_mod_eq_zero, ← ZMod.natCast_eq_zero_iff]
        simp
      change c.coordinates _ = c.add (.affine x₁.val y₁.val) (.affine x₂.val y₂.val)
      simp only [add, hval, hopposite]
      split_ifs with hx hy
      · rw [Point.add_of_Y_eq hx hy, coordinates_zero]
      · subst hx
        have hsame := Y_eq_of_Y_ne h₁.1 h₂.1 rfl hy
        subst hsame
        have hy0 : y₁ + y₁ ≠ 0 := fun h0 => hy (by rw [negY_eq]; exact eq_neg_of_add_eq_zero_left h0)
        have hslope : ((3 * x₁.val * x₁.val % c.fieldPrime * c.fieldInv (2 * y₁.val % c.fieldPrime) %
            c.fieldPrime : Nat) : ZMod c.fieldPrime) = c.weierstrass.slope x₁ x₁ y₁ y₁ := by
          rw [slope_of_Y_ne rfl hy, negY_eq]
          simp only [ZMod.natCast_mod, Nat.cast_mul, c.natCast_fieldInv hp, ZMod.natCast_val, ZMod.cast_id', id_eq,
            weierstrass, Nat.cast_ofNat]
          rw [sub_neg_eq_add, ← two_mul, div_eq_mul_inv]
          ring
        rw [Point.add_self_of_Y_ne hy]
        refine coordinates_chord ?_ ?_ _
        · rw [hslope, addX]
          simp [weierstrass]
        · rw [hslope, addY, negY_eq, negAddY]
          ring
      · have hslope : ((c.fieldSub y₂.val y₁.val * c.fieldInv (c.fieldSub x₂.val x₁.val) % c.fieldPrime : Nat) :
            ZMod c.fieldPrime) = c.weierstrass.slope x₁ x₂ y₁ y₂ := by
          rw [slope_of_X_ne hx, ZMod.natCast_mod, Nat.cast_mul, c.natCast_fieldInv hp,
            c.natCast_fieldSub (ZMod.val_lt y₁).le, c.natCast_fieldSub (ZMod.val_lt x₁).le]
          simp only [ZMod.natCast_val, ZMod.cast_id', id_eq]
          rw [← neg_sub y₁, ← neg_sub x₁, inv_neg, neg_mul_neg, div_eq_mul_inv]
        rw [Point.add_of_X_ne hx]
        refine coordinates_chord ?_ ?_ _
        · rw [hslope, addX]
          simp [weierstrass]
        · rw [hslope, addY, negY_eq, negAddY]
          ring

/-! ## Multiples in Jacobian coordinates -/

namespace Jacobian

/-- A triple of reduced numbers stands for a point of the group. -/
structure Represents (j : Jacobian) (P : c.weierstrass.Point) : Prop where
  x_lt : j.x < c.fieldPrime
  y_lt : j.y < c.fieldPrime
  z_lt : j.z < c.fieldPrime
  stands : j.z = 0 ∧ P = 0 ∨
    j.z ≠ 0 ∧ ∃ x y h, P = .some x y h ∧ (j.x : ZMod c.fieldPrime) = x * (j.z : ZMod c.fieldPrime) ^ 2 ∧
      (j.y : ZMod c.fieldPrime) = y * (j.z : ZMod c.fieldPrime) ^ 3

variable {j : Jacobian} {P : c.weierstrass.Point}

/-- What stands for a point that is not infinity. -/
theorem represents_some {x y : ZMod c.fieldPrime} (h : c.weierstrass.Nonsingular x y) {a b d : Nat}
    (ha : a < c.fieldPrime) (hb : b < c.fieldPrime) (hd : d < c.fieldPrime) (hz : (d : ZMod c.fieldPrime) ≠ 0)
    (hx : (a : ZMod c.fieldPrime) = x * (d : ZMod c.fieldPrime) ^ 2)
    (hy : (b : ZMod c.fieldPrime) = y * (d : ZMod c.fieldPrime) ^ 3) :
    Represents (Jacobian.mk a b d) (.some x y h) := by
  exact ⟨ha, hb, hd, Or.inr ⟨mt (c.natCast_eq_zero_iff hd).2 hz, x, y, h, rfl, hx, hy⟩⟩

theorem represents_zero (hp : 1 < c.fieldPrime) : Represents (c := c) (Jacobian.mk 1 1 0) 0 :=
  ⟨hp, hp, c.fieldPrime_pos, Or.inl ⟨rfl, rfl⟩⟩

theorem Represents.natCast_z_ne_zero (h : Represents j P) (hz : j.z ≠ 0) : (j.z : ZMod c.fieldPrime) ≠ 0 :=
  mt (c.natCast_eq_zero_iff h.z_lt).1 hz

theorem natCast_double_z (j : Jacobian) : ((double c j).z : ZMod c.fieldPrime) = 2 * j.y * j.z := by
  simp [Jacobian.double]

/-- The tangent at a point that is not its own opposite meets the curve in twice the point, up to sign. -/
theorem represents_double_of_ne (hp : 3 < c.fieldPrime) {x y : ZMod c.fieldPrime}
    (hxy : c.weierstrass.Nonsingular x y) (hy0 : y ≠ 0) (hz : (j.z : ZMod c.fieldPrime) ≠ 0)
    (hx : (j.x : ZMod c.fieldPrime) = x * (j.z : ZMod c.fieldPrime) ^ 2)
    (hy : (j.y : ZMod c.fieldPrime) = y * (j.z : ZMod c.fieldPrime) ^ 3) :
    Represents (double c j) (Point.some x y hxy + Point.some x y hxy) := by
  have htwo := natCast_two_ne_zero hp
  have hdz := natCast_double_z (c := c) j
  have hne : y ≠ c.weierstrass.negY x y := by
    rw [negY_eq]
    intro heq
    have : 2 * y = 0 := by linear_combination heq
    exact hy0 ((mul_eq_zero.1 this).resolve_left htwo)
  have hslope : c.weierstrass.slope x x y y = 3 * x ^ 2 / (2 * y) := by
    rw [slope_of_Y_ne rfl hne, negY_eq]
    simp [weierstrass, two_mul]
  have hx₃ : ((double c j).x : ZMod c.fieldPrime) =
      c.weierstrass.addX x x (c.weierstrass.slope x x y y) * ((double c j).z : ZMod c.fieldPrime) ^ 2 := by
    rw [hdz, hslope, addX, hy]
    simp only [Jacobian.double, c.natCast_fieldSub (c.mod_lt _).le, ZMod.natCast_mod, Nat.cast_mul, Nat.cast_ofNat,
      weierstrass, hx, hy]
    field_simp
    ring
  have hy₃ : ((double c j).y : ZMod c.fieldPrime) =
      c.weierstrass.addY x x y (c.weierstrass.slope x x y y) * ((double c j).z : ZMod c.fieldPrime) ^ 3 := by
    have hdy : ((double c j).y : ZMod c.fieldPrime) =
        3 * j.x ^ 2 * (4 * j.x * j.y ^ 2 - ((double c j).x : ZMod c.fieldPrime)) - 8 * j.y ^ 4 := by
      simp only [Jacobian.double, c.natCast_fieldSub (c.mod_lt _).le, c.natCast_fieldSub (c.fieldSub_lt _ _).le,
        ZMod.natCast_mod, Nat.cast_mul, Nat.cast_ofNat]
      ring
    rw [hdy, hx₃, hdz, addY, negY_eq, negAddY, addX, hslope, hx, hy]
    simp only [weierstrass]
    field_simp
    ring
  have hdz0 : ((double c j).z : ZMod c.fieldPrime) ≠ 0 := by
    rw [hdz, hy]
    exact mul_ne_zero (mul_ne_zero htwo (mul_ne_zero hy0 (pow_ne_zero 3 hz))) hz
  rw [Point.add_self_of_Y_ne hne]
  exact represents_some _ (c.fieldSub_lt _ _) (c.fieldSub_lt _ _) (c.mod_lt _) hdz0 hx₃ hy₃

theorem Represents.double (hp : 3 < c.fieldPrime) (h : Represents j P) : Represents (double c j) (P + P) := by
  rcases h.stands with ⟨hz, rfl⟩ | ⟨hz, x, y, hxy, rfl, hx, hy⟩
  · refine ⟨c.fieldSub_lt _ _, c.fieldSub_lt _ _, c.mod_lt _, Or.inl ⟨?_, add_zero 0⟩⟩
    simp [Jacobian.double, hz]
  · by_cases hy0 : y = 0
    · refine ⟨c.fieldSub_lt _ _, c.fieldSub_lt _ _, c.mod_lt _, Or.inl ⟨?_, ?_⟩⟩
      · refine (c.natCast_eq_zero_iff (c.mod_lt _)).1 ((natCast_double_z j).trans ?_)
        rw [hy, hy0]
        ring
      · exact Point.add_self_of_Y_eq (by rw [negY_eq, hy0, neg_zero])
    · exact represents_double_of_ne hp hxy hy0 (h.natCast_z_ne_zero hz) hx hy

/-- The sum with an affine point of another x, from the differences of the coordinates. -/
theorem represents_add_of_ne {x y : ZMod c.fieldPrime} (hxy : c.weierstrass.Nonsingular x y) {qx qy : Nat}
    (hq : c.weierstrass.Nonsingular (qx : ZMod c.fieldPrime) (qy : ZMod c.fieldPrime)) (hxne : x ≠ qx)
    (hz : (j.z : ZMod c.fieldPrime) ≠ 0) (hx : (j.x : ZMod c.fieldPrime) = x * (j.z : ZMod c.fieldPrime) ^ 2)
    (hy : (j.y : ZMod c.fieldPrime) = y * (j.z : ZMod c.fieldPrime) ^ 3) {d r : Nat}
    (hd : (d : ZMod c.fieldPrime) = (qx - x) * (j.z : ZMod c.fieldPrime) ^ 2)
    (hr : (r : ZMod c.fieldPrime) = (qy - y) * (j.z : ZMod c.fieldPrime) ^ 3) {x₃ : Nat}
    (hx₃ : x₃ = c.fieldSub (c.fieldSub (r * r % c.fieldPrime) (d * (d * d % c.fieldPrime) % c.fieldPrime))
      (2 * (j.x * (d * d % c.fieldPrime) % c.fieldPrime) % c.fieldPrime)) :
    Represents (Jacobian.mk x₃
        (c.fieldSub (r * c.fieldSub (j.x * (d * d % c.fieldPrime) % c.fieldPrime) x₃ % c.fieldPrime)
          (j.y * (d * (d * d % c.fieldPrime) % c.fieldPrime) % c.fieldPrime))
        (j.z * d % c.fieldPrime))
      (Point.some x y hxy + Point.some _ _ hq) := by
  have hsub : x - qx ≠ 0 := sub_ne_zero.2 hxne
  have hslope : c.weierstrass.slope x qx y qy = (y - qy) / (x - qx) := slope_of_X_ne hxne
  have hlt : x₃ < c.fieldPrime := hx₃ ▸ c.fieldSub_lt _ _
  have hsum : (x₃ : ZMod c.fieldPrime) = c.weierstrass.addX x qx (c.weierstrass.slope x qx y qy) *
      ((j.z * d % c.fieldPrime : Nat) : ZMod c.fieldPrime) ^ 2 := by
    rw [hx₃]
    simp only [c.natCast_fieldSub (c.mod_lt _).le, ZMod.natCast_mod, Nat.cast_mul, Nat.cast_ofNat]
    rw [hslope, addX, hd, hr, hx]
    simp only [weierstrass]
    field_simp
    ring
  rw [Point.add_of_X_ne hxne]
  refine represents_some _ hlt (c.fieldSub_lt _ _) (c.mod_lt _) ?_ hsum ?_
  · rw [ZMod.natCast_mod, Nat.cast_mul, hd]
    refine mul_ne_zero hz (mul_ne_zero ?_ (pow_ne_zero 2 hz))
    rwa [← neg_sub, neg_ne_zero]
  · rw [c.natCast_fieldSub (c.mod_lt _).le, ZMod.natCast_mod, Nat.cast_mul, c.natCast_fieldSub hlt.le, hsum]
    simp only [ZMod.natCast_mod, Nat.cast_mul]
    rw [addY, negY_eq, negAddY, addX, hslope, hd, hr, hx, hy]
    simp only [weierstrass]
    field_simp
    ring

theorem Represents.addAffine (hp : 3 < c.fieldPrime) (h : Represents j P) {qx qy : Nat}
    (hqx : qx < c.fieldPrime) (hqy : qy < c.fieldPrime)
    (hq : c.weierstrass.Nonsingular (qx : ZMod c.fieldPrime) (qy : ZMod c.fieldPrime)) :
    Represents (addAffine c j qx qy) (P + .some _ _ hq) := by
  rcases h.stands with ⟨hz, rfl⟩ | ⟨hz, x, y, hxy, rfl, hx, hy⟩
  · rw [Jacobian.addAffine, if_pos hz, zero_add]
    exact represents_some hq hqx hqy (by omega) (by simp) (by simp) (by simp)
  · have hz' := h.natCast_z_ne_zero hz
    generalize hzz : j.z * j.z % c.fieldPrime = zz
    generalize hh : c.fieldSub (qx * zz % c.fieldPrime) j.x = d
    generalize hr : c.fieldSub (qy * zz % c.fieldPrime * j.z % c.fieldPrime) j.y = r
    have hd : (d : ZMod c.fieldPrime) = (qx - x) * (j.z : ZMod c.fieldPrime) ^ 2 := by
      rw [← hh, ← hzz, c.natCast_fieldSub h.x_lt.le, hx]
      simp only [ZMod.natCast_mod, Nat.cast_mul]
      ring
    have hr' : (r : ZMod c.fieldPrime) = (qy - y) * (j.z : ZMod c.fieldPrime) ^ 3 := by
      rw [← hr, ← hzz, c.natCast_fieldSub h.y_lt.le, hy]
      simp only [ZMod.natCast_mod, Nat.cast_mul]
      ring
    have hd0 : d = 0 ↔ x = qx := by
      rw [← c.natCast_eq_zero_iff (hh ▸ c.fieldSub_lt _ _), hd, mul_eq_zero, sub_eq_zero, eq_comm (a := x)]
      simp [hz']
    have hr0 : r = 0 ↔ y = qy := by
      rw [← c.natCast_eq_zero_iff (hr ▸ c.fieldSub_lt _ _), hr', mul_eq_zero, sub_eq_zero, eq_comm (a := y)]
      simp [hz']
    rw [Jacobian.addAffine, if_neg hz]
    simp only [hzz, hh, hr]
    split_ifs with hdz hrz
    · have hdouble := h.double hp
      rw [hd0] at hdz
      rw [hr0] at hrz
      subst hdz hrz
      exact hdouble
    · rw [hd0] at hdz
      rw [hr0] at hrz
      have hopposite := (Y_eq_of_X_eq hxy.1 hq.1 hdz).resolve_left hrz
      rw [Point.add_of_Y_eq hdz hopposite]
      exact represents_zero (by omega)
    · exact represents_add_of_ne hxy hq (mt hd0.2 hdz) hz' hx hy hd hr' rfl

/-- Doubling and adding gives a multiple. -/
theorem represents_multiple (hp : 3 < c.fieldPrime) {qx qy : Nat} (hqx : qx < c.fieldPrime)
    (hqy : qy < c.fieldPrime) (hq : c.weierstrass.Nonsingular (qx : ZMod c.fieldPrime) (qy : ZMod c.fieldPrime))
    (k : Nat) : Represents (multiple c k qx qy) (k • Point.some _ _ hq) := by
  induction k using Nat.strongRecOn with
  | ind k ih =>
      rw [multiple]
      by_cases h0 : k = 0
      · rw [if_pos h0, h0, zero_nsmul]
        exact represents_zero (by omega)
      · rw [if_neg h0]
        have hdouble := (ih (k / 2) (by omega)).double hp
        rw [← two_nsmul, ← mul_nsmul'] at hdouble
        dsimp only
        split_ifs with hodd
        · have hsum : k • Point.some _ _ hq = (2 * (k / 2)) • Point.some _ _ hq + Point.some _ _ hq := by
            rw [← succ_nsmul]
            congr 1
            omega
          rw [hsum]
          exact hdouble.addAffine hp hqx hqy hq
        · have heven : 2 * (k / 2) = k := by omega
          rwa [heven] at hdouble

theorem Represents.toPoint (hp : 2 < c.fieldPrime) (h : Represents j P) : toPoint c j = c.coordinates P := by
  rcases h.stands with ⟨hz, rfl⟩ | ⟨hz, x, y, hxy, rfl, hx, hy⟩
  · rw [Jacobian.toPoint, if_pos hz, coordinates_zero]
  · have hz' := h.natCast_z_ne_zero hz
    rw [Jacobian.toPoint, if_neg hz]
    refine (coordinates_some hxy (c.mod_lt _) (c.mod_lt _) ?_ ?_).symm
    · simp only [ZMod.natCast_mod, Nat.cast_mul, c.natCast_fieldInv hp, hx]
      field_simp
    · simp only [ZMod.natCast_mod, Nat.cast_mul, c.natCast_fieldInv hp, hy]
      field_simp

end Jacobian

theorem coordinates_nsmul (hp : 3 < c.fieldPrime) (k : Nat) (P : c.weierstrass.Point) :
    c.coordinates (k • P) = c.smul k (c.coordinates P) := by
  match P with
  | .zero => exact congrArg c.coordinates (nsmul_zero k)
  | .some x y h =>
      have hcast : ∀ a : ZMod c.fieldPrime, (a.val : ZMod c.fieldPrime) = a := fun a => ZMod.natCast_zmod_val a
      have h' : c.weierstrass.Nonsingular (x.val : ZMod c.fieldPrime) (y.val : ZMod c.fieldPrime) := by
        rwa [hcast, hcast]
      have hsome : Point.some _ _ h' = Point.some x y h := by
        simp only [hcast]
      have hmultiple := Jacobian.represents_multiple hp (ZMod.val_lt x) (ZMod.val_lt y) h' k
      rw [← hsome, ← hmultiple.toPoint (by omega)]
      simp only [coordinates, smul, hcast]

end ShareCovenant.Curve
