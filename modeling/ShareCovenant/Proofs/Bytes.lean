import Mathlib
import ShareCovenant.Bytes.Lemmas

/-!
# Little-endian byte strings

How reading and writing numbers interact with joining and cutting byte strings, and which byte strings are
the digits of a number.
-/

namespace ShareCovenant

/-- A property of all bytes is one of the 256 values. -/
theorem forall_byte {P : UInt8 → Prop} (h : ∀ i : Fin 256, P (UInt8.ofNat i)) (b : UInt8) : P b := by
  have := h ⟨b.toNat, b.toNat_lt⟩
  simpa using this

theorem take_append_drop_append (n : Nat) (bs rest : Bytes) : bs.take n ++ (bs.drop n ++ rest) = bs ++ rest := by
  rw [← List.append_assoc, List.take_append_drop]

theorem FixedBytes.ofBytes?_eq_some_iff {n : Nat} {bytes : Bytes} {fixed : FixedBytes n} :
    ofBytes? n bytes = some fixed ↔ bytes = fixed.val := by
  rw [ofBytes?]
  split_ifs with hlen
  · rw [Option.some.injEq, Subtype.ext_iff]
  · simp only [false_iff]
    rintro rfl
    exact hlen fixed.property

namespace LittleEndian

/-! ## Joining -/

theorem decode_append (as bs : Bytes) :
    decode (as ++ bs) = decode as + 256 ^ as.length * decode bs := by
  induction as with
  | nil => simp [decode]
  | cons a as ih =>
      simp only [List.cons_append, decode, ih, List.length_cons, pow_succ]
      ring

theorem encode_add (m n v : Nat) : encode (m + n) v = encode m v ++ encode n (v / 256 ^ m) := by
  induction m generalizing v with
  | zero => simp [encode]
  | succ m ih =>
      rw [Nat.add_right_comm, encode, encode, ih, Nat.div_div_eq_div_mul, ← pow_succ']
      rfl

theorem encode_mod (width n : Nat) : encode width (n % 256 ^ width) = encode width n := by
  have h := encode_decode (encode width n)
  rwa [length_encode, decode_encode] at h

theorem encode_congr {width m n : Nat} (h : m % 256 ^ width = n % 256 ^ width) :
    encode width m = encode width n := by
  rw [← encode_mod width m, h, encode_mod]

/-- The common bits of two numbers are those of their bytes. -/
theorem zipWith_and_encode (width m n : Nat) :
    List.zipWith (· &&& ·) (encode width m) (encode width n) = encode width (m &&& n) := by
  induction width generalizing m n with
  | zero => rfl
  | succ width ih =>
      rw [encode, encode, List.zipWith_cons_cons, ih, encode, UInt8.ofNat_and]
      congr 2
      exact (Nat.and_div_two_pow (n := 8)).symm

theorem encode_zero (width : Nat) : encode width 0 = List.replicate width 0 := by
  induction width with
  | zero => rfl
  | succ width ih => simp [encode, ih, List.replicate_succ]

/-! ## Numbers with the same bytes -/

theorem decode_encode_of_lt {width n : Nat} (h : n < 256 ^ width) : decode (encode width n) = n := by
  rw [decode_encode, Nat.mod_eq_of_lt h]

theorem eq_encode_of_length {bs : Bytes} {width : Nat} (h : bs.length = width) :
    bs = encode width (decode bs) := by
  subst h
  exact (encode_decode bs).symm

theorem encode_inj {width m n : Nat} (hm : m < 256 ^ width) (hn : n < 256 ^ width)
    (h : encode width m = encode width n) : m = n := by
  rw [← decode_encode_of_lt hm, ← decode_encode_of_lt hn, h]

theorem encode_uint32_injective : Function.Injective fun n : UInt32 => encode 4 n.toNat := by
  intro m n h
  exact UInt32.toNat_inj.1 (encode_inj m.toNat_lt n.toNat_lt h)

theorem encode_uint64_injective : Function.Injective fun n : UInt64 => encode 8 n.toNat := by
  intro m n h
  exact UInt64.toNat_inj.1 (encode_inj m.toNat_lt n.toNat_lt h)

theorem decode_encode_uint64 (v : UInt64) : decode (encode 8 v.toNat) = v.toNat :=
  decode_encode_of_lt v.toNat_lt

theorem exists_encode_uint64 {bs : Bytes} (h : bs.length = 8) : ∃ v : UInt64, bs = encode 8 v.toNat := by
  have hlt := decode_lt bs
  rw [h] at hlt
  refine ⟨UInt64.ofNat (decode bs), ?_⟩
  rw [UInt64.toNat_ofNat', Nat.mod_eq_of_lt (b := 2 ^ 64) hlt]
  exact eq_encode_of_length h

theorem decode_eq_zero_iff (bs : Bytes) : decode bs = 0 ↔ ∀ b ∈ bs, b = 0 := by
  induction bs with
  | nil => simp [decode]
  | cons b bs ih =>
      have hb : b.toNat = 0 ↔ b = 0 := by rw [← UInt8.toNat_inj]; rfl
      simp [decode, ih, hb]

/-! ## Digits -/

theorem digits_zero : digits 0 = [] := by rw [digits]; rfl

theorem digits_of_pos {n : Nat} (h : n ≠ 0) : digits n = UInt8.ofNat n :: digits (n / 256) := by
  rw [digits, if_neg h]

theorem digits_decode_cons (b : UInt8) (bs : Bytes) :
    digits (decode (b :: bs)) = if decode (b :: bs) = 0 then [] else b :: digits (decode bs) := by
  have hb := b.toNat_lt
  have hdiv : (b.toNat + 256 * decode bs) / 256 = decode bs := by omega
  have hmod : UInt8.ofNat (b.toNat + 256 * decode bs) = b := by
    apply UInt8.toNat_inj.1
    rw [UInt8.toNat_ofNat']
    omega
  split
  · simp only [digits_zero, *]
  · rename_i h
    rw [digits_of_pos h, decode, hdiv, hmod]

/-- The bytes of a number without a zero at the end are its digits. -/
theorem digits_decode {bs : Bytes} (h : bs.getLast? ≠ some 0) : digits (decode bs) = bs := by
  induction bs with
  | nil => exact digits_zero
  | cons b bs ih =>
      rw [digits_decode_cons]
      cases bs with
      | nil =>
          have hb : b ≠ 0 := by simpa using h
          have : decode [b] ≠ 0 := by rw [Ne, decode_eq_zero_iff]; simpa using hb
          rw [if_neg this]
          simp [decode, digits_zero]
      | cons c cs =>
          have hlast : (c :: cs).getLast? ≠ some 0 := by simpa using h
          have hih := ih hlast
          have : decode (b :: c :: cs) ≠ 0 := by
            intro h0
            have hz : decode (c :: cs) = 0 := by
              rw [decode] at h0
              omega
            rw [hz, digits_zero] at hih
            cases hih
          simp [this, hih]

theorem getLast?_digits (n : Nat) : (digits n).getLast? ≠ some 0 := by
  induction n using Nat.strongRecOn with
  | ind n ih =>
      by_cases h : n = 0
      · simp [h, digits_zero]
      · rw [digits_of_pos h]
        by_cases h256 : n / 256 = 0
        · have hn : n < 256 := by omega
          intro h0
          rw [h256, digits_zero] at h0
          have h1 : UInt8.ofNat n = 0 := by simpa using h0
          have h2 := congrArg UInt8.toNat h1
          rw [UInt8.toNat_ofNat'] at h2
          change n % 256 = 0 at h2
          omega
        · rw [digits_of_pos h256, List.getLast?_cons_cons, ← digits_of_pos h256]
          exact ih _ (by omega)

end LittleEndian

end ShareCovenant
