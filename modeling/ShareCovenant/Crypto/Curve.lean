import ShareCovenant.Bytes

/-!
# Short Weierstrass curves

Points of `y² = x³ + b` over a prime field, with the point at infinity as a case of its own and all
coordinates reduced. Multiples of a point are computed in Jacobian coordinates, with one inversion at the
end. `Curve.secp256k1` is the curve that signatures use.
-/

namespace ShareCovenant

/-- `y² = x³ + coefficient` over the integers modulo `fieldPrime`, with a base point that generates a
group of `order` points. -/
structure Curve where
  fieldPrime : Nat
  coefficient : Nat
  order : Nat
  baseX : Nat
  baseY : Nat

/-- A point of a curve. -/
inductive Point where
  | infinity
  | affine (x y : Nat)
  deriving DecidableEq, Repr

/-- `base ^ exponent` modulo `m`, by repeated squaring. -/
def powMod (m base exponent : Nat) : Nat :=
  if exponent = 0 then 1 % m
  else
    let half := powMod m (base * base % m) (exponent / 2)
    if exponent % 2 = 1 then base * half % m else half
termination_by exponent

namespace Curve

variable (c : Curve)

/-- The base point. -/
def base : Point := .affine c.baseX c.baseY

/-- The right-hand side of the curve's equation. -/
def cubic (x : Nat) : Nat := (x * x % c.fieldPrime * x + c.coefficient) % c.fieldPrime

/-- Infinity and the reduced coordinates that satisfy the curve's equation. -/
def Contains : Point → Prop
  | .infinity => True
  | .affine x y => x < c.fieldPrime ∧ y < c.fieldPrime ∧ y * y % c.fieldPrime = c.cubic x

instance (p : Point) : Decidable (c.Contains p) := by
  cases p <;> unfold Contains <;> infer_instance

/-! ## The field -/

/-- The difference of two reduced numbers. -/
def fieldSub (a b : Nat) : Nat := (a + (c.fieldPrime - b)) % c.fieldPrime

/-- The inverse of a number by Fermat's little theorem; zero for zero. -/
def fieldInv (a : Nat) : Nat := powMod c.fieldPrime a (c.fieldPrime - 2)

/-- A square root of each square, as the field prime is 3 modulo 4. -/
def fieldSqrt (a : Nat) : Nat := powMod c.fieldPrime a ((c.fieldPrime + 1) / 4)

/-- A number other than zero that has a square root, by Euler's criterion. -/
def isResidue (a : Nat) : Bool := powMod c.fieldPrime a ((c.fieldPrime - 1) / 2) == 1

/-! ## The group -/

/-- The point reflected in the x axis. -/
def neg : Point → Point
  | .infinity => .infinity
  | .affine x y => .affine x ((c.fieldPrime - y) % c.fieldPrime)

/-- The third point of the line with the given slope through two points, reflected in the x axis. -/
def chord (slope x₁ y₁ x₂ : Nat) : Point :=
  let x₃ := c.fieldSub (c.fieldSub (slope * slope % c.fieldPrime) x₁) x₂
  .affine x₃ (c.fieldSub (slope * c.fieldSub x₁ x₃ % c.fieldPrime) y₁)

/-- The sum of two points. -/
def add : Point → Point → Point
  | .infinity, q => q
  | p, .infinity => p
  | .affine x₁ y₁, .affine x₂ y₂ =>
      if x₁ = x₂ then
        if (y₁ + y₂) % c.fieldPrime = 0 then .infinity
        else c.chord (3 * x₁ * x₁ % c.fieldPrime * c.fieldInv (2 * y₁ % c.fieldPrime) % c.fieldPrime) x₁ y₁ x₂
      else c.chord (c.fieldSub y₂ y₁ * c.fieldInv (c.fieldSub x₂ x₁) % c.fieldPrime) x₁ y₁ x₂

/-- `(x, y, z)` stands for the point `(x / z², y / z³)`, and for infinity when `z` is zero. -/
structure Jacobian where
  x : Nat
  y : Nat
  z : Nat

namespace Jacobian

/-- Twice a point. -/
def double (p : Jacobian) : Jacobian :=
  let m := c.fieldPrime
  let yy := p.y * p.y % m
  let s := 4 * p.x * yy % m
  let slope := 3 * p.x * p.x % m
  let x := c.fieldSub (slope * slope % m) (2 * s % m)
  { x := x
    y := c.fieldSub (slope * c.fieldSub s x % m) (8 * yy * yy % m)
    z := 2 * p.y * p.z % m }

/-- The sum of a point and a point with affine coordinates. -/
def addAffine (p : Jacobian) (qx qy : Nat) : Jacobian :=
  let m := c.fieldPrime
  if p.z = 0 then { x := qx, y := qy, z := 1 }
  else
    let zz := p.z * p.z % m
    let h := c.fieldSub (qx * zz % m) p.x
    let r := c.fieldSub (qy * zz % m * p.z % m) p.y
    if h = 0 then
      if r = 0 then double c p else { x := 1, y := 1, z := 0 }
    else
      let hh := h * h % m
      let hhh := h * hh % m
      let v := p.x * hh % m
      let x := c.fieldSub (c.fieldSub (r * r % m) hhh) (2 * v % m)
      { x := x
        y := c.fieldSub (r * c.fieldSub v x % m) (p.y * hhh % m)
        z := p.z * h % m }

/-- The point in affine coordinates. -/
def toPoint (p : Jacobian) : Point :=
  if p.z = 0 then .infinity
  else
    let i := c.fieldInv p.z
    let ii := i * i % c.fieldPrime
    .affine (p.x * ii % c.fieldPrime) (p.y * (ii * i % c.fieldPrime) % c.fieldPrime)

/-- A multiple of an affine point, by doubling and adding. -/
def multiple (k qx qy : Nat) : Jacobian :=
  if k = 0 then { x := 1, y := 1, z := 0 }
  else
    let twice := double c (multiple (k / 2) qx qy)
    if k % 2 = 1 then addAffine c twice qx qy else twice
termination_by k

end Jacobian

/-- The `k`-fold sum of a point. -/
def smul (k : Nat) : Point → Point
  | .infinity => .infinity
  | .affine x y => (Jacobian.multiple c k x y).toPoint c

/-! ## Scalars -/

/-- The numbers from one up to the order, without the order. -/
abbrev Scalar := { k : Nat // 0 < k ∧ k < c.order }

/-- The number as a scalar, unless it is zero or not below the order. -/
def scalar? (k : Nat) : Option c.Scalar :=
  if h : 0 < k ∧ k < c.order then some ⟨k, h⟩ else none

/-! ## The curve of signatures -/

/-- The curve secp256k1. -/
def secp256k1 : Curve where
  fieldPrime := 0xfffffffffffffffffffffffffffffffffffffffffffffffffffffffefffffc2f
  coefficient := 7
  order := 0xfffffffffffffffffffffffffffffffebaaedce6af48a03bbfd25e8cd0364141
  baseX := 0x79be667ef9dcbbac55a06295ce870b07029bfcdb2dce28d959f2815b16f81798
  baseY := 0x483ada7726a3c4655da4fbfc0e1108a8fd17b448a68554199c47d08ffb10d4b8

end Curve

end ShareCovenant
