import Mathlib
import ShareCovenant.Key.PublicKey
import ShareCovenant.Proofs.Bytes
import ShareCovenant.Proofs.Curve.Group

/-!
# Curves of prime order

What signatures need of a curve: its points form a group whose order is an odd prime. A point other than
infinity then generates the group, no point lies on the x axis, and both serialized forms of a point are read
back as the point.
-/

namespace ShareCovenant

namespace Curve

/-- A curve over a prime field in which all multiples of its points by an odd prime are infinity. -/
structure PrimeOrder (c : Curve) : Prop where
  prime : c.fieldPrime.Prime
  mod_four : c.fieldPrime % 4 = 3
  three_lt : 3 < c.fieldPrime
  fieldPrime_lt : c.fieldPrime < 256 ^ 32
  coefficient : ¬c.fieldPrime ∣ c.coefficient
  order_prime : c.order.Prime
  two_lt_order : 2 < c.order
  order_lt : c.order < 256 ^ 32
  contains_base : c.Contains c.base
  smul_order : ∀ p, c.Contains p → c.smul c.order p = .infinity

namespace PrimeOrder

variable {c : Curve} (hc : c.PrimeOrder)

include hc

theorem two_lt : 2 < c.fieldPrime := Nat.lt_of_succ_lt hc.three_lt

theorem natCast_coefficient_ne_zero : (c.coefficient : ZMod c.fieldPrime) ≠ 0 := by
  rw [Ne, ZMod.natCast_eq_zero_iff]
  exact hc.coefficient

/-! ## Orders -/

section Group

variable [Fact c.fieldPrime.Prime]

theorem exists_of_contains {p : ShareCovenant.Point} (h : c.Contains p) : ∃ P, c.coordinates P = p :=
  (contains_iff hc.three_lt hc.natCast_coefficient_ne_zero p).1 h

theorem contains_coordinates (P : c.weierstrass.Point) : c.Contains (c.coordinates P) :=
  (contains_iff hc.three_lt hc.natCast_coefficient_ne_zero _).2 ⟨P, rfl⟩

theorem exists_base : ∃ G, c.coordinates G = c.base ∧ G ≠ 0 := by
  obtain ⟨G, hG⟩ := hc.exists_of_contains hc.contains_base
  exact ⟨G, hG, mt coordinates_eq_infinity_iff.2 (by rw [hG]; nofun)⟩

theorem contains_smul {p : ShareCovenant.Point} (h : c.Contains p) (n : Nat) : c.Contains (c.smul n p) := by
  obtain ⟨P, rfl⟩ := hc.exists_of_contains h
  rw [← coordinates_nsmul hc.three_lt]
  exact hc.contains_coordinates _

theorem order_nsmul (P : c.weierstrass.Point) : c.order • P = 0 := by
  rw [← coordinates_eq_infinity_iff, coordinates_nsmul hc.three_lt]
  exact hc.smul_order _ (hc.contains_coordinates P)

theorem addOrderOf_eq {P : c.weierstrass.Point} (h : P ≠ 0) : addOrderOf P = c.order := by
  have := Fact.mk hc.order_prime
  exact addOrderOf_eq_prime (hc.order_nsmul P) h

/-- Multiples of a point other than infinity are equal if the factors are congruent. -/
theorem nsmul_eq_nsmul_iff {P : c.weierstrass.Point} (h : P ≠ 0) (m n : Nat) :
    m • P = n • P ↔ m % c.order = n % c.order := by
  rw [nsmul_eq_nsmul_iff_modEq, hc.addOrderOf_eq h]
  rfl

theorem nsmul_mod (m : Nat) (P : c.weierstrass.Point) : (m % c.order) • P = m • P := by
  by_cases h : P = 0
  · rw [h, nsmul_zero, nsmul_zero]
  · rw [hc.nsmul_eq_nsmul_iff h, Nat.mod_mod]

/-- No point but infinity is its own opposite. -/
theorem ne_neg {P : c.weierstrass.Point} (h : P ≠ 0) : P ≠ -P := by
  intro hneg
  have htwo : 2 • P = 0 • P := by
    rw [two_nsmul, zero_nsmul]
    nth_rewrite 2 [hneg]
    exact add_neg_cancel P
  rw [hc.nsmul_eq_nsmul_iff h, Nat.mod_eq_of_lt hc.two_lt_order] at htwo
  simp at htwo

end Group

theorem fact_prime : Fact c.fieldPrime.Prime := ⟨hc.prime⟩

/-- No point lies on the x axis. -/
theorem y_pos {x y : Nat} (h : c.Contains (.affine x y)) : 0 < y := by
  have := hc.fact_prime
  obtain ⟨P, hP⟩ := hc.exists_of_contains h
  by_contra h0
  have hy : y = 0 := by omega
  have hne : P ≠ 0 := mt coordinates_eq_infinity_iff.2 (by rw [hP]; nofun)
  apply hc.ne_neg hne
  apply coordinates_injective
  rw [coordinates_neg, hP, hy, neg, Nat.sub_zero, Nat.mod_self]

/-- Two points with one x are equal or opposite. -/
theorem y_eq_or {x y y' : Nat} (h : c.Contains (.affine x y)) (h' : c.Contains (.affine x y')) :
    y' = y ∨ y' = c.fieldPrime - y := by
  have := hc.fact_prime
  have hpos := hc.y_pos h
  obtain ⟨-, hy, heq⟩ := (contains_affine_iff x y).1 h
  obtain ⟨-, hy', heq'⟩ := (contains_affine_iff x y').1 h'
  rcases sq_eq_sq_iff_eq_or_eq_neg.1 (heq'.trans heq.symm) with hsame | hopposite
  · exact Or.inl (c.eq_of_natCast_eq hy' hy hsame)
  · right
    apply c.eq_of_natCast_eq hy' (by omega)
    rw [hopposite, Nat.cast_sub hy.le, ZMod.natCast_self, zero_sub]

/-! ## Serialized points -/

theorem decode_encode {a : Nat} (h : a < c.fieldPrime) : BigEndian.decode (BigEndian.encode 32 a) = a := by
  rw [BigEndian.decode_encode, Nat.mod_eq_of_lt (h.trans hc.fieldPrime_lt)]

theorem odd_fieldPrime : c.fieldPrime % 2 = 1 := by
  have := hc.mod_four
  omega

theorem fieldSqrt_lt (a : Nat) : c.fieldSqrt a < c.fieldPrime := powMod_lt hc.prime.pos _ _

/-- Lifting an x gives the point with that x and the wanted parity. -/
theorem liftX_eq_some_iff (x parity : Nat) (hparity : parity < 2) (p : ShareCovenant.Point) :
    c.liftX? x parity = some p ↔ ∃ y, p = .affine x y ∧ c.Contains (.affine x y) ∧ y % 2 = parity := by
  have := hc.fact_prime
  have hodd := hc.odd_fieldPrime
  have hroot := hc.fieldSqrt_lt (c.cubic x)
  have hcontains : ∀ y, c.Contains (.affine x y) → x < c.fieldPrime ∧
      c.Contains (.affine x (c.fieldSqrt (c.cubic x))) := by
    intro y h
    obtain ⟨hx, hy, heq⟩ := (contains_affine_iff x y).1 h
    refine ⟨hx, (contains_affine_iff _ _).2 ⟨hx, hroot, ?_⟩⟩
    rw [sq, natCast_fieldSqrt_sq hc.mod_four ⟨y, by rw [natCast_cubic, ← heq, sq]⟩, natCast_cubic]
  constructor
  · intro h
    simp only [liftX?] at h
    split_ifs at h with hx hsq hpar
    all_goals
      cases h
      have hpoint : c.Contains (.affine x (c.fieldSqrt (c.cubic x))) := ⟨hx, hroot, hsq⟩
      have hpos := hc.y_pos hpoint
    · exact ⟨_, rfl, hpoint, hpar⟩
    · refine ⟨_, rfl, ?_, ?_⟩
      · obtain ⟨P, hP⟩ := hc.exists_of_contains hpoint
        have hneg := hc.contains_coordinates (-P)
        rw [coordinates_neg, hP] at hneg
        exact hneg
      · rw [Nat.mod_eq_of_lt (a := c.fieldPrime - _) (by omega)]
        omega
  · rintro ⟨y, rfl, hpoint, hpar⟩
    obtain ⟨hx, hroot'⟩ := hcontains y hpoint
    have hpos := hc.y_pos hpoint
    have hy : y < c.fieldPrime := hpoint.2.1
    rw [liftX?, if_pos hx, if_pos hroot'.2.2]
    rcases hc.y_eq_or hpoint hroot' with heq | heq
    · rw [heq, if_pos hpar]
    · rw [heq, if_neg (by omega), Nat.sub_sub_self hy.le, Nat.mod_eq_of_lt hy]

theorem parsePoint_compressed {p : ShareCovenant.Point} (h : c.Contains p) (hne : p ≠ .infinity) :
    c.parsePoint? p.compressed = some p := by
  match p, h, hne with
  | .affine x y, h, _ =>
      have hx := hc.decode_encode h.1
      rcases Nat.mod_two_eq_zero_or_one y with hbit | hbit
      · have hbytes : (Point.affine x y).compressed.val = 2 :: BigEndian.encode 32 x := by
          simp [Point.compressed, hbit]
        rw [hbytes, parsePoint?, if_pos (by simp), hx]
        exact (hc.liftX_eq_some_iff x 0 (by decide) _).2 ⟨y, rfl, h, hbit⟩
      · have hbytes : (Point.affine x y).compressed.val = 3 :: BigEndian.encode 32 x := by
          simp [Point.compressed, hbit]
        rw [hbytes, parsePoint?, if_pos (by simp), hx]
        exact (hc.liftX_eq_some_iff x 1 (by decide) _).2 ⟨y, rfl, h, hbit⟩

theorem parsePoint_uncompressed {p : ShareCovenant.Point} (h : c.Contains p) (hne : p ≠ .infinity) :
    c.parsePoint? p.uncompressed = some p := by
  match p, h, hne with
  | .affine x y, h, _ =>
      have hx := hc.decode_encode h.1
      have hy := hc.decode_encode h.2.1
      have hlen : (BigEndian.encode 32 x).length = 32 := BigEndian.length_encode 32 x
      change parsePoint? c (4 :: (BigEndian.encode 32 x ++ BigEndian.encode 32 y)) = _
      rw [parsePoint?, if_neg (by simp), if_pos (by simp), List.take_left' hlen, List.drop_left' hlen, hx, hy]
      exact if_pos ⟨rfl, h⟩

/-- What is read from a tag and one coordinate has that x, and the tag tells the parity of y. -/
theorem exists_of_parsePoint_short {tag : UInt8} {coordinates : Bytes} {p : ShareCovenant.Point}
    (hlen : coordinates.length = 32) (h : c.parsePoint? (tag :: coordinates) = some p) :
    ∃ y, p = .affine (BigEndian.decode coordinates) y ∧ c.Contains p ∧ tag = if y % 2 = 0 then 2 else 3 := by
  have htag : tag = 2 ∨ tag = 3 := by
    by_contra htag
    rw [parsePoint?, if_neg (by tauto), if_neg (by omega)] at h
    cases h
  rw [parsePoint?, if_pos ⟨hlen, htag⟩] at h
  rcases htag with rfl | rfl
  · obtain ⟨y, rfl, hpoint, hbit⟩ := (hc.liftX_eq_some_iff _ 0 (by decide) _).1 h
    exact ⟨y, rfl, hpoint, by simp [hbit]⟩
  · obtain ⟨y, rfl, hpoint, hbit⟩ := (hc.liftX_eq_some_iff _ 1 (by decide) _).1 h
    exact ⟨y, rfl, hpoint, by simp [hbit]⟩

/-- What is read is a point of the curve other than infinity. -/
theorem contains_of_parsePoint {bytes : Bytes} {p : ShareCovenant.Point} (h : c.parsePoint? bytes = some p) :
    c.Contains p ∧ p ≠ .infinity := by
  cases bytes with
  | nil => cases h
  | cons tag coordinates =>
      by_cases hlen : coordinates.length = 32
      · obtain ⟨y, rfl, hpoint, -⟩ := hc.exists_of_parsePoint_short hlen h
        exact ⟨hpoint, nofun⟩
      · rw [parsePoint?, if_neg (by tauto)] at h
        dsimp only at h
        split_ifs at h with _ hpoint
        cases h
        exact ⟨hpoint.2, nofun⟩

/-- What is read from 33 bytes is a point with these bytes. -/
theorem of_parsePoint {pubkey : FixedBytes 33} {p : ShareCovenant.Point}
    (h : c.parsePoint? pubkey = some p) : c.Contains p ∧ p ≠ .infinity ∧ p.compressed = pubkey := by
  obtain ⟨bytes, hlen⟩ := pubkey
  cases bytes with
  | nil => cases h
  | cons tag coordinates =>
      have hcoordinates : coordinates.length = 32 := by simpa using hlen
      have hencode : BigEndian.encode 32 (BigEndian.decode coordinates) = coordinates := by
        rw [← hcoordinates]
        exact BigEndian.encode_decode _
      obtain ⟨y, rfl, hpoint, rfl⟩ := hc.exists_of_parsePoint_short hcoordinates h
      refine ⟨hpoint, nofun, Subtype.ext ?_⟩
      simp [Point.compressed, hencode]

end PrimeOrder

end Curve

end ShareCovenant
