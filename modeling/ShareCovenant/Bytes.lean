/-!
# Byte strings

Byte strings are lists of bytes, so that scripts, transactions and digests are cut and joined by the
list operations. `FixedBytes n` carries its length in the type. Numbers are written least significant
byte first (`LittleEndian`) or most significant byte first (`BigEndian`); writing what was read gives the
bytes again.
-/

namespace ShareCovenant

abbrev Bytes := List UInt8

/-- Byte strings of exactly `n` bytes. -/
abbrev FixedBytes (n : Nat) := { bytes : Bytes // bytes.length = n }

/-- The bytes as a string of `n` bytes, if there are that many. -/
def FixedBytes.ofBytes? (n : Nat) (bytes : Bytes) : Option (FixedBytes n) :=
  if h : bytes.length = n then some ⟨bytes, h⟩ else none

/-- `n` zero bytes. -/
def FixedBytes.zero (n : Nat) : FixedBytes n := ⟨List.replicate n 0, by simp⟩

/-! ## Little-endian numbers -/

namespace LittleEndian

/-- The `width` low bytes of a number, least significant first. -/
def encode : Nat → Nat → Bytes
  | 0, _ => []
  | width + 1, n => UInt8.ofNat n :: encode width (n / 256)

/-- The number that the bytes spell, least significant first. -/
def decode : Bytes → Nat
  | [] => 0
  | b :: bs => b.toNat + 256 * decode bs

@[simp] theorem length_encode (width n : Nat) : (encode width n).length = width := by
  induction width generalizing n with
  | zero => rfl
  | succ width ih => simp [encode, ih]

theorem encode_decode (bs : Bytes) : encode bs.length (decode bs) = bs := by
  induction bs with
  | nil => rfl
  | cons b bs ih =>
      have hb := b.toNat_lt
      have h1 : (b.toNat + 256 * decode bs) / 256 = decode bs := by omega
      have h2 : UInt8.ofNat (b.toNat + 256 * decode bs) = b := by
        apply UInt8.toNat_inj.1
        simp only [UInt8.toNat_ofNat']
        omega
      simp [encode, decode, h1, h2, ih]

/-- The fewest bytes that spell a number, least significant first: none for zero. -/
def digits (n : Nat) : Bytes :=
  if n = 0 then [] else UInt8.ofNat n :: digits (n / 256)
termination_by n

theorem decode_digits (n : Nat) : decode (digits n) = n := by
  induction n using Nat.strongRecOn with
  | ind n ih =>
      rw [digits]
      split
      · simp [decode, *]
      · have hb : (UInt8.ofNat n).toNat = n % 256 := UInt8.toNat_ofNat'
        rw [decode, ih (n / 256) (by omega), hb]
        omega

end LittleEndian

/-! ## Big-endian numbers -/

namespace BigEndian

/-- The `width` low bytes of a number, most significant first. -/
def encode (width n : Nat) : Bytes := (LittleEndian.encode width n).reverse

/-- The number that the bytes spell, most significant first. -/
def decode (bs : Bytes) : Nat := LittleEndian.decode bs.reverse

@[simp] theorem length_encode (width n : Nat) : (encode width n).length = width := by
  simp [encode]

theorem encode_decode (bs : Bytes) : encode bs.length (decode bs) = bs := by
  have h := LittleEndian.encode_decode bs.reverse
  rw [List.length_reverse] at h
  simp [encode, decode, h]

/-- The number in a field of `width` bytes. -/
def fixed (width n : Nat) : FixedBytes width := ⟨encode width n, length_encode width n⟩

end BigEndian

end ShareCovenant
