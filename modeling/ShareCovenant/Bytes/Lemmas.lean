import ShareCovenant.Bytes
import Mathlib.Algebra.Ring.Nat

/-!
# Bounds of encoded numbers

A number that is written in a field of `width` bytes and read again is the number modulo `256 ^ width`,
in either byte order, and the number that a byte string spells lies below `256` to its length.
-/

namespace ShareCovenant

namespace LittleEndian

theorem decode_encode (width n : Nat) : decode (encode width n) = n % 256 ^ width := by
  induction width generalizing n with
  | zero => simp [encode, decode, Nat.mod_one]
  | succ width ih =>
      have hb : (UInt8.ofNat n).toNat = n % 256 := UInt8.toNat_ofNat'
      rw [Nat.pow_succ, Nat.mul_comm (256 ^ width), Nat.mod_mul, encode, decode, ih, hb]

theorem decode_lt (bs : Bytes) : decode bs < 256 ^ bs.length := by
  induction bs with
  | nil => simp [decode]
  | cons b bs ih =>
      have hb := b.toNat_lt
      simp only [decode, List.length_cons, Nat.pow_succ]
      omega

end LittleEndian

namespace BigEndian

theorem decode_encode (width n : Nat) : decode (encode width n) = n % 256 ^ width := by
  simp [encode, decode, LittleEndian.decode_encode]

theorem decode_lt (bs : Bytes) : decode bs < 256 ^ bs.length := by
  simpa [decode] using LittleEndian.decode_lt bs.reverse

end BigEndian

end ShareCovenant
