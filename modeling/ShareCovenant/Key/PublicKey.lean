import ShareCovenant.Crypto.Curve

/-!
# Serialized points

A point is written as a tag byte and its coordinates: tags 2 and 3 with `x` alone, the tag giving the
parity of `y`, and tags 4, 6 and 7 with both. Reading accepts only reduced coordinates of points on the
curve.
-/

namespace ShareCovenant

/-- The coordinates of a point. Infinity has none, and zeros stand for them. -/
def Point.affineCoordinates : Point → Nat × Nat
  | .infinity => (0, 0)
  | .affine x y => (x, y)

/-- The 33 bytes of a point: the parity of `y`, and `x`. Infinity is 33 zero bytes, which are no point. -/
def Point.compressed : Point → FixedBytes 33
  | .infinity => FixedBytes.zero 33
  | .affine x y => ⟨(if y % 2 = 0 then 2 else 3) :: BigEndian.encode 32 x, by simp⟩

/-- The 65 bytes of a point: both coordinates. Infinity is 65 zero bytes, which are no point. -/
def Point.uncompressed : Point → FixedBytes 65
  | .infinity => FixedBytes.zero 65
  | .affine x y => ⟨4 :: (BigEndian.encode 32 x ++ BigEndian.encode 32 y), by simp⟩

namespace Curve

variable (c : Curve)

/-- The point with a given `x` whose `y` has the given parity. -/
def liftX? (x parity : Nat) : Option Point :=
  if x < c.fieldPrime then
    let y := c.fieldSqrt (c.cubic x)
    if y * y % c.fieldPrime = c.cubic x then
      some (.affine x (if y % 2 = parity then y else (c.fieldPrime - y) % c.fieldPrime))
    else none
  else none

/-- Whether a tag of the long form allows this `y`. -/
def tagAllows (tag : UInt8) (y : Nat) : Bool :=
  tag == 4 || (tag == 6 && y % 2 == 0) || (tag == 7 && y % 2 == 1)

/-- Reads a serialized point, other than infinity. -/
def parsePoint? : Bytes → Option Point
  | [] => none
  | tag :: coordinates =>
      if coordinates.length = 32 ∧ (tag = 2 ∨ tag = 3) then
        c.liftX? (BigEndian.decode coordinates) (tag.toNat - 2)
      else if coordinates.length = 64 then
        let x := BigEndian.decode (coordinates.take 32)
        let y := BigEndian.decode (coordinates.drop 32)
        if tagAllows tag y ∧ c.Contains (.affine x y) then some (.affine x y) else none
      else none

end Curve

end ShareCovenant
