import Mathlib
import ShareCovenant.Proofs.Bytes
import ShareCovenant.Script.Number

/-!
# Script numbers and the numbers they stand for

`Number.encode` and `Number.value` are inverse on minimal strings, and every conversion keeps the value:
minimizing a string encodes its value, an operand of arithmetic is read if and only if it is the encoding of
a number of at most 31 bits, and filling up a number that is not negative writes it with a fixed width.
-/

namespace ShareCovenant.Number

open LittleEndian (digits digits_zero decode_digits getLast?_digits decode_append decode_encode_of_lt
  length_encode)

/-! ## Signs of bytes -/

/-- The bits of a byte as arithmetic. -/
theorem bits_of_byte (b : UInt8) :
    signBit b = decide (128 ≤ b.toNat) ∧ (b &&& 0x7f).toNat = b.toNat % 128 ∧
      (b &&& 0x80).toNat = (if signBit b then 128 else 0) ∧ (b ||| 0x80).toNat = b.toNat % 128 + 128 := by
  revert b
  exact forall_byte (by decide +kernel)

theorem signBit_eq (b : UInt8) : signBit b = decide (128 ≤ b.toNat) := (bits_of_byte b).1

theorem toNat_low (b : UInt8) : (b &&& 0x7f).toNat = b.toNat % 128 := (bits_of_byte b).2.1

theorem low_eq_zero_iff (b : UInt8) : b &&& 0x7f = 0 ↔ b.toNat % 128 = 0 := by
  rw [← UInt8.toNat_inj, toNat_low]
  rfl

theorem toNat_high (b : UInt8) : (b &&& 0x80).toNat = if signBit b then 128 else 0 := (bits_of_byte b).2.2.1

theorem toNat_withHigh (b : UInt8) : (b ||| 0x80).toNat = b.toNat % 128 + 128 := (bits_of_byte b).2.2.2

theorem low_of_lt {b : UInt8} (h : b.toNat < 128) : b &&& 0x7f = b := by
  rw [← UInt8.toNat_inj, toNat_low, Nat.mod_eq_of_lt h]

/-! ## The value of a string -/

theorem exists_eq_concat {bs : Bytes} {k : Nat} (h : bs.length = k + 1) :
    ∃ init last, bs = init ++ [last] ∧ init.length = k := by
  rcases List.eq_nil_or_concat' bs with rfl | ⟨init, last, rfl⟩
  · cases h
  · exact ⟨init, last, rfl, by simpa using h⟩

@[simp] theorem value_nil : value [] = 0 := rfl

/-- The sign of the last byte applies to all of the others. -/
theorem value_concat (init : Bytes) (last : UInt8) :
    value (init ++ [last]) =
      if 128 ≤ last.toNat then -((LittleEndian.decode init + 256 ^ init.length * (last.toNat % 128) : Nat) : Int)
      else ((LittleEndian.decode init + 256 ^ init.length * last.toNat : Nat) : Int) := by
  have hlow : LittleEndian.decode [last &&& 0x7f] = last.toNat % 128 := by
    rw [LittleEndian.decode, toNat_low]
    rfl
  simp only [value, List.getLast?_concat, List.dropLast_concat, decode_append, hlow, signBit_eq]
  by_cases h : 128 ≤ last.toNat
  · simp [h]
  · have : last.toNat % 128 = last.toNat := by omega
    simp [h, this]

theorem value_append_zero (bs : Bytes) : value (bs ++ [0]) = LittleEndian.decode bs := by
  simp [value_concat]

/-- A string whose top bit is free stands for the number that its bytes spell. -/
theorem value_of_decode_lt {bs : Bytes} {k : Nat} (hlen : bs.length = k + 1)
    (h : LittleEndian.decode bs < 128 * 256 ^ k) : value bs = LittleEndian.decode bs := by
  obtain ⟨init, last, rfl, hk⟩ := exists_eq_concat hlen
  have hd : LittleEndian.decode (init ++ [last]) = LittleEndian.decode init + 256 ^ k * last.toNat := by
    simp [decode_append, LittleEndian.decode, hk]
  have hlast : last.toNat < 128 := by
    rw [hd] at h
    by_contra hge
    have : 256 ^ k * 128 ≤ 256 ^ k * last.toNat := Nat.mul_le_mul_left _ (by omega)
    omega
  rw [value_concat, if_neg (by omega), hd, hk]

/-- A string that stands for a positive number spells it. -/
theorem decode_of_value_pos {bs : Bytes} (h : 0 < value bs) : (LittleEndian.decode bs : Int) = value bs := by
  rcases List.eq_nil_or_concat' bs with rfl | ⟨init, last, rfl⟩
  · simp at h
  · rw [value_concat] at h ⊢
    split_ifs at h ⊢ with hsign
    · omega
    · simp [decode_append, LittleEndian.decode]

/-- A number whose first byte leaves the sign bit free is the value of all strings that spell it. -/
theorem value_eq_natCast_iff {bs : Bytes} {n k : Nat} (hge : 256 ^ k ≤ n) (hlt : n < 128 * 256 ^ k) :
    value bs = n ↔ LittleEndian.decode bs = n := by
  have hpos : 0 < n := Nat.lt_of_lt_of_le (Nat.pow_pos (by decide)) hge
  constructor
  · intro h
    have := decode_of_value_pos (show 0 < value bs by omega)
    omega
  · intro h
    have hpow : 256 ^ k < 256 ^ bs.length := by
      rw [← h] at hge
      exact Nat.lt_of_le_of_lt hge (LittleEndian.decode_lt bs)
    obtain ⟨j, hj⟩ := Nat.exists_eq_add_of_lt ((Nat.pow_lt_pow_iff_right (by decide)).1 hpow)
    have hle : 128 * 256 ^ k ≤ 128 * 256 ^ (k + j) :=
      Nat.mul_le_mul_left _ (Nat.pow_le_pow_right (by decide) (Nat.le_add_right _ _))
    rw [value_of_decode_lt hj (by omega), h]

/-- A string of few bytes stands for a small number, whatever its sign. -/
theorem natAbs_value_lt {bs : Bytes} {k : Nat} (h : bs.length = k + 1) :
    (value bs).natAbs < 128 * 256 ^ k := by
  obtain ⟨init, last, rfl, hk⟩ := exists_eq_concat h
  have hinit := LittleEndian.decode_lt init
  have hbyte := last.toNat_lt
  have hle : 256 ^ k * (last.toNat % 128) ≤ 256 ^ k * 127 := Nat.mul_le_mul_left _ (by omega)
  rw [hk] at hinit
  rw [value_concat, hk]
  split_ifs with hsign
  · omega
  · have : last.toNat % 128 = last.toNat := by omega
    rw [this] at hle
    omega

theorem value_encode_of_lt {v k : Nat} (h : v < 128 * 256 ^ k) :
    value (LittleEndian.encode (k + 1) v) = v := by
  have hlt : v < 256 ^ (k + 1) := by
    rw [pow_succ]
    omega
  have hd := decode_encode_of_lt hlt
  rw [value_of_decode_lt (length_encode _ _) (by rw [hd]; exact h), hd]

/-- With the top bit set, a string of a fixed width stands for the negative of what it spells without that bit. -/
theorem value_encode_of_ge {v k : Nat} (hge : 128 * 256 ^ k ≤ v) (hlt : v < 256 ^ (k + 1)) :
    value (LittleEndian.encode (k + 1) v) = -((v - 128 * 256 ^ k : Nat) : Int) := by
  have hpow : 0 < 256 ^ k := by positivity
  have hquot : v / 256 ^ k < 256 := Nat.div_lt_of_lt_mul (by rwa [← pow_succ])
  have htop : 128 ≤ v / 256 ^ k := (Nat.le_div_iff_mul_le hpow).2 hge
  have hbyte : (UInt8.ofNat (v / 256 ^ k)).toNat = v / 256 ^ k := by
    rw [UInt8.toNat_ofNat']
    omega
  have hmod : v / 256 ^ k % 128 = v / 256 ^ k - 128 := by omega
  have hsplit : LittleEndian.encode (k + 1) v = LittleEndian.encode k v ++ [UInt8.ofNat (v / 256 ^ k)] :=
    LittleEndian.encode_add k 1 v
  have hrest : v % 256 ^ k + 256 ^ k * (v / 256 ^ k - 128) = v - 128 * 256 ^ k := by
    have hdiv := Nat.mod_add_div v (256 ^ k)
    have hle := Nat.mul_le_mul_left (256 ^ k) htop
    rw [Nat.mul_comm (256 ^ k) 128] at hle
    rw [Nat.mul_sub, Nat.mul_comm (256 ^ k) 128]
    omega
  rw [hsplit, value_concat, hbyte, if_pos htop, length_encode, LittleEndian.decode_encode, hmod, hrest]

/-! ## Minimal strings -/

theorem withSign_concat (negative : Bool) (init : Bytes) (last : UInt8) :
    withSign negative (init ++ [last]) =
      if 128 ≤ last.toNat then init ++ [last] ++ [if negative then 0x80 else 0x00]
      else if negative then init ++ [last ||| 0x80]
      else init ++ [last] := by
  simp [withSign, signBit_eq]

theorem encode_zero : encode 0 = [] := by
  simp [encode, digits_zero, withSign]

/-- Either a magnitude is zero, or it has digits, the last one of which is not zero. -/
theorem digits_cases (n : Nat) :
    n = 0 ∧ digits n = [] ∨
      ∃ init last, digits n = init ++ [last] ∧ 0 < last.toNat ∧
        n = LittleEndian.decode init + 256 ^ init.length * last.toNat := by
  rcases List.eq_nil_or_concat' (digits n) with h | ⟨init, last, h⟩
  · left
    have := decode_digits n
    rw [h] at this
    exact ⟨this.symm, h⟩
  · right
    have hlast := getLast?_digits n
    rw [h, List.getLast?_concat] at hlast
    have hpos : last.toNat ≠ 0 := by
      intro h0
      exact hlast (congrArg some (UInt8.toNat_inj.1 h0))
    refine ⟨init, last, h, Nat.pos_of_ne_zero hpos, ?_⟩
    conv_lhs => rw [← decode_digits n, h, decode_append]
    simp [LittleEndian.decode]

theorem value_encode (n : Int) : value (encode n) = n := by
  rcases digits_cases n.natAbs with ⟨h0, hd⟩ | ⟨init, last, hd, hpos, hn⟩
  · rw [Int.natAbs_eq_zero.1 h0, encode_zero, value_nil]
  · rw [encode, hd, withSign_concat]
    have hlast := last.toNat_lt
    split
    · have hm : LittleEndian.decode (init ++ [last]) = n.natAbs := by
        rw [hn, decode_append]
        simp [LittleEndian.decode]
      by_cases hneg : n < 0
      · simp only [hneg, decide_true, ↓reduceIte, value_concat]
        rw [if_pos (by decide), hm, show (0x80 : UInt8).toNat % 128 = 0 from rfl]
        omega
      · simp only [hneg, decide_false, Bool.false_eq_true, ↓reduceIte, value_append_zero, hm]
        omega
    · by_cases hneg : n < 0
      · simp only [hneg, decide_true, ↓reduceIte, value_concat, toNat_withHigh]
        rw [if_pos (by omega), Nat.add_mod_right, Nat.mod_mod, Nat.mod_eq_of_lt (by omega), ← hn]
        omega
      · simp only [hneg, decide_false, Bool.false_eq_true, ↓reduceIte, value_concat]
        rw [if_neg (by omega), ← hn]
        omega

/-- A small positive number is one byte. -/
theorem encode_byte {k : Nat} (h0 : 0 < k) (h : k < 128) : encode k = [UInt8.ofNat k] := by
  have hbyte : (UInt8.ofNat k).toNat = k := by
    rw [UInt8.toNat_ofNat']
    omega
  have hdigits : digits k = [] ++ [UInt8.ofNat k] := by
    rw [LittleEndian.digits_of_pos (by omega), Nat.div_eq_of_lt (by omega), digits_zero]
    rfl
  rw [encode, Int.natAbs_natCast, hdigits, withSign_concat, hbyte, if_neg (by omega)]
  simp

theorem encode_injective : Function.Injective encode :=
  Function.LeftInverse.injective value_encode

/-! ## Minimizing -/

theorem decode_dropHighZeros (bs : Bytes) :
    LittleEndian.decode (dropHighZeros bs) = LittleEndian.decode bs := by
  induction bs using List.reverseRecOn with
  | nil => rfl
  | append_singleton init last ih =>
      by_cases h : last = 0
      · subst h
        have : dropHighZeros (init ++ [0]) = dropHighZeros init := by simp [dropHighZeros]
        rw [this, ih, decode_append]
        simp [LittleEndian.decode]
      · have : dropHighZeros (init ++ [last]) = init ++ [last] := by simp [dropHighZeros, h]
        rw [this]

theorem getLast?_dropHighZeros (bs : Bytes) : (dropHighZeros bs).getLast? ≠ some 0 := by
  simp only [dropHighZeros, List.getLast?_reverse]
  intro h
  have := List.head?_dropWhile_not (· == (0 : UInt8)) bs.reverse
  rw [h] at this
  simp at this

theorem digits_decode_eq (bs : Bytes) : digits (LittleEndian.decode bs) = dropHighZeros bs := by
  rw [← decode_dropHighZeros]
  exact LittleEndian.digits_decode (getLast?_dropHighZeros bs)

theorem decode_eq_decode_iff {bs ds : Bytes} (h : ds.getLast? ≠ some 0) :
    LittleEndian.decode bs = LittleEndian.decode ds ↔ dropHighZeros bs = ds := by
  constructor
  · intro heq
    rw [← digits_decode_eq, heq, LittleEndian.digits_decode h]
  · rintro rfl
    exact (decode_dropHighZeros bs).symm

/-- A last byte with more than a sign makes a string minimal. -/
theorem encode_value_of_low {init : Bytes} {last : UInt8} (h : last.toNat % 128 ≠ 0) :
    encode (value (init ++ [last])) = init ++ [last] := by
  have hbyte := last.toNat_lt
  have hlow : (last &&& 0x7f) ≠ 0 := by rwa [Ne, low_eq_zero_iff]
  have hd : digits (LittleEndian.decode (init ++ [last &&& 0x7f])) = init ++ [last &&& 0x7f] :=
    LittleEndian.digits_decode (by simpa using hlow)
  have hm : LittleEndian.decode (init ++ [last &&& 0x7f]) =
      LittleEndian.decode init + 256 ^ init.length * (last.toNat % 128) := by
    rw [decode_append, LittleEndian.decode, toNat_low]
    simp [LittleEndian.decode]
  have hpos : 0 < 256 ^ init.length * (last.toNat % 128) :=
    Nat.mul_pos (by positivity) (Nat.pos_of_ne_zero h)
  rw [value_concat]
  split
  · rename_i hsign
    have hneg : -((LittleEndian.decode init + 256 ^ init.length * (last.toNat % 128) : Nat) : Int) < 0 := by
      omega
    rw [encode, Int.natAbs_neg, Int.natAbs_natCast, ← hm, hd, withSign_concat, hm]
    rw [if_neg (by rw [toNat_low]; omega), decide_eq_true hneg, if_pos rfl]
    congr 2
    apply UInt8.toNat_inj.1
    rw [toNat_withHigh, toNat_low]
    omega
  · rename_i hsign
    have hsame := low_of_lt (not_le.1 hsign)
    rw [Nat.mod_eq_of_lt (not_le.1 hsign)] at hm
    rw [encode, Int.natAbs_natCast, ← hm, hd, hsame, withSign_concat, if_neg hsign]
    rw [if_neg (by simp)]

/-- Minimizing a string encodes its value. -/
theorem minimize_eq (bs : Bytes) : minimize bs = encode (value bs) := by
  rcases List.eq_nil_or_concat' bs with rfl | ⟨init, last, rfl⟩
  · rw [value_nil, encode_zero]
    rfl
  · simp only [minimize, List.getLast?_concat, List.dropLast_concat]
    by_cases h : last.toNat % 128 = 0
    · have hlow := (low_eq_zero_iff last).2 h
      have hbyte := last.toNat_lt
      rw [if_neg (by simpa using hlow), value_concat, ← digits_decode_eq, h, Nat.mul_zero, Nat.add_zero]
      rcases digits_cases (LittleEndian.decode init) with ⟨h0, hd⟩ | ⟨pre, d, hd, hpos, hm⟩
      · have hzero : (if 128 ≤ last.toNat then -((LittleEndian.decode init : Nat) : Int)
            else ((LittleEndian.decode init + 256 ^ init.length * last.toNat : Nat) : Int)) = 0 := by
          split
          · omega
          · have : last.toNat = 0 := by omega
            simp [this, h0]
        rw [hzero, encode_zero, hd]
        rfl
      · have hne : 0 < LittleEndian.decode init := by
          rw [hm]
          positivity
        split
        · rename_i hsign
          rw [encode, Int.natAbs_neg, Int.natAbs_natCast, signBit_eq]
          congr 1
          rw [decide_eq_true hsign, eq_comm, decide_eq_true_eq]
          omega
        · rename_i hsign
          have hlast : last.toNat = 0 := by omega
          rw [hlast, Nat.mul_zero, Nat.add_zero, encode, Int.natAbs_natCast, signBit_eq]
          congr 1
          rw [decide_eq_false hsign, eq_comm, decide_eq_false_iff_not]
          omega
    · rw [if_pos (by rwa [Ne, low_eq_zero_iff]), encode_value_of_low h]

theorem minimize_encode (n : Int) : minimize (encode n) = encode n := by
  rw [minimize_eq, value_encode]

/-! ## Operands of arithmetic -/

theorem isMinimal_concat (init : Bytes) (last : UInt8) :
    isMinimal (init ++ [last]) = true ↔
      last.toNat % 128 ≠ 0 ∨ ∃ pre before, init = pre ++ [before] ∧ 128 ≤ before.toNat := by
  have hlow := low_eq_zero_iff last
  rcases List.eq_nil_or_concat' init with rfl | ⟨pre, before, rfl⟩
  · simp [isMinimal, hlow]
  · simp [isMinimal, hlow, signBit_eq]

theorem isMinimal_encode (n : Int) : isMinimal (encode n) = true := by
  rcases digits_cases n.natAbs with ⟨h0, hd⟩ | ⟨init, last, hd, hpos, hn⟩
  · rw [Int.natAbs_eq_zero.1 h0, encode_zero]
    rfl
  · have hbyte := last.toNat_lt
    rw [encode, hd, withSign_concat]
    split_ifs with hsign hneg
    · rw [isMinimal_concat]
      exact Or.inr ⟨init, last, rfl, hsign⟩
    · rw [isMinimal_concat]
      exact Or.inr ⟨init, last, rfl, hsign⟩
    · rw [isMinimal_concat, toNat_withHigh]
      left
      omega
    · rw [isMinimal_concat]
      left
      omega

/-- A string is minimal if and only if it encodes its value. -/
theorem isMinimal_iff (bs : Bytes) : isMinimal bs = true ↔ bs = encode (value bs) := by
  refine ⟨fun h => ?_, fun h => by rw [h]; exact isMinimal_encode _⟩
  rcases List.eq_nil_or_concat' bs with rfl | ⟨init, last, rfl⟩
  · rw [value_nil, encode_zero]
  · rw [isMinimal_concat] at h
    by_cases hlow : last.toNat % 128 = 0
    · obtain ⟨pre, before, rfl, hbefore⟩ := h.resolve_left (not_not.2 hlow)
      have hne : before ≠ 0 := by
        rintro rfl
        exact absurd hbefore (by decide)
      have hdrop : dropHighZeros (pre ++ [before]) = pre ++ [before] := by simp [dropHighZeros, hne]
      have hlast : (if signBit last then 0x80 else 0x00) = last := by
        have hbyte := last.toNat_lt
        apply UInt8.toNat_inj.1
        rw [signBit_eq]
        split_ifs with hsign
        · rw [decide_eq_true_eq] at hsign
          change 128 = last.toNat
          omega
        · rw [decide_eq_true_eq] at hsign
          change 0 = last.toNat
          omega
      rw [← minimize_eq, minimize, List.getLast?_concat]
      simp only
      rw [if_neg (not_not.2 ((low_eq_zero_iff _).2 hlow)), List.dropLast_concat, hdrop, withSign_concat,
        if_pos hbefore, hlast]
    · exact (encode_value_of_low hlow).symm

/-- The encoding of a number has at most `k + 1` bytes if the magnitude fits in them beside a sign. -/
theorem length_encode_le_iff (n : Int) (k : Nat) :
    (encode n).length ≤ k + 1 ↔ n.natAbs < 128 * 256 ^ k := by
  have hk : 0 < 256 ^ k := by positivity
  rcases digits_cases n.natAbs with ⟨h0, hd⟩ | ⟨init, last, hd, hpos, hn⟩
  · rw [Int.natAbs_eq_zero.1 h0, encode_zero]
    simp
  · have hinit := LittleEndian.decode_lt init
    have hbyte := last.toNat_lt
    have hlen : (encode n).length = if 128 ≤ last.toNat then init.length + 2 else init.length + 1 := by
      rw [encode, hd, withSign_concat]
      split_ifs <;> simp
    have hlow : 256 ^ init.length * 1 ≤ 256 ^ init.length * last.toNat := Nat.mul_le_mul_left _ hpos
    have hpow : ∀ i j, i ≤ j → 256 ^ i ≤ 256 ^ j := fun i j => Nat.pow_le_pow_right (by norm_num)
    rw [hlen, hn]
    split_ifs with hsign
    · have hge : 256 ^ init.length * 128 ≤ 256 ^ init.length * last.toNat := Nat.mul_le_mul_left _ hsign
      have hle : 256 ^ init.length * last.toNat ≤ 256 ^ init.length * 255 :=
        Nat.mul_le_mul_left _ (by omega)
      rcases Nat.lt_or_ge init.length k with h | h
      · have := hpow (init.length + 1) k h
        rw [pow_succ] at this
        omega
      · have := hpow k init.length h
        omega
    · have hle : 256 ^ init.length * last.toNat ≤ 256 ^ init.length * 127 :=
        Nat.mul_le_mul_left _ (by omega)
      rcases Nat.lt_or_ge k init.length with h | h
      · have := hpow (k + 1) init.length h
        rw [pow_succ] at this
        omega
      · have := hpow init.length k h
        omega

/-- The numbers that arithmetic reads. -/
def IsOperand (n : Int) : Prop := n.natAbs < 0x80000000

instance (n : Int) : Decidable (IsOperand n) := Nat.decLt _ _

theorem isOperand_natCast {v : Nat} (h : v < 0x80000000) : IsOperand v := by
  simpa [IsOperand] using h

theorem length_encode_le_four (n : Int) : (encode n).length ≤ maxSize ↔ IsOperand n := by
  rw [maxSize, length_encode_le_iff]
  norm_num [IsOperand]

/-- An operand is read if and only if it is the encoding of a number in range. -/
theorem decode_eq_ok_iff (bs : Bytes) (n : Int) : decode bs = .ok n ↔ bs = encode n ∧ IsOperand n := by
  unfold decode
  split_ifs with hlen hmin
  · refine ⟨nofun, ?_⟩
    rintro ⟨rfl, hn⟩
    have := (length_encode_le_four n).2 hn
    omega
  · rw [isMinimal_iff] at hmin
    constructor
    · intro h
      cases h
      refine ⟨hmin, ?_⟩
      rw [← length_encode_le_four, ← hmin]
      omega
    · rintro ⟨rfl, -⟩
      rw [value_encode]
  · refine ⟨nofun, ?_⟩
    rintro ⟨rfl, -⟩
    exact absurd (isMinimal_encode n) hmin

theorem decode_encode {n : Int} (h : IsOperand n) : decode (encode n) = .ok n :=
  (decode_eq_ok_iff _ _).2 ⟨rfl, h⟩

/-! ## Filling up and truth -/

theorem resize_concat {init : Bytes} {last : UInt8} {size : Nat} (h : init.length + 1 < size) :
    resize (init ++ [last]) size =
      .ok (init ++ [last &&& 0x7f] ++ List.replicate (size - 1 - (init.length + 1)) 0 ++
        [last &&& 0x80]) := by
  rw [resize, if_neg (by simp; omega), if_neg (by simp; omega), List.getLast?_concat]
  simp

/-- Filling up keeps the value. -/
theorem value_of_resize {n : Int} {size : Nat} {bs : Bytes} (h : resize (encode n) size = .ok bs) :
    bs.length = size ∧ value bs = n := by
  rcases Nat.lt_trichotomy (encode n).length size with hlen | hlen | hlen
  · have hval := value_encode n
    rcases List.eq_nil_or_concat' (encode n) with h0 | ⟨init, last, hs⟩
    · rw [h0, value_nil] at hval
      rw [h0, List.length_nil] at hlen
      rw [h0, resize, if_neg (by simp), if_neg (by simp; omega)] at h
      cases h
      obtain ⟨k, rfl⟩ : ∃ k, size = k + 1 := ⟨size - 1, by omega⟩
      rw [← hval, ← LittleEndian.encode_zero]
      exact ⟨length_encode _ _, value_encode_of_lt (by positivity)⟩
    · rw [hs, List.length_append, List.length_singleton] at hlen
      rw [hs, resize_concat hlen] at h
      cases h
      rw [hs, value_concat] at hval
      refine ⟨by simp; omega, ?_⟩
      rw [value_concat, decode_append, decode_append, ← LittleEndian.encode_zero, decode_encode_of_lt
        (by positivity), LittleEndian.decode, toNat_low, toNat_high, signBit_eq, ← hval]
      by_cases hsign : 128 ≤ last.toNat
      · simp [hsign, LittleEndian.decode]
      · have : last.toNat % 128 = last.toNat := by omega
        simp [hsign, LittleEndian.decode, this]
  · rw [resize, if_neg (by omega), if_pos hlen] at h
    cases h
    exact ⟨hlen, value_encode n⟩
  · rw [resize, if_pos hlen] at h
    cases h

/-- The encoding of a number that is not negative spells it, with the top bit free. -/
theorem encode_natCast (v : Nat) :
    LittleEndian.decode (encode v) = v ∧ ∀ last, (encode (v : Int)).getLast? = some last → last.toNat < 128 := by
  have hval := value_encode v
  rcases List.eq_nil_or_concat' (encode (v : Int)) with h0 | ⟨init, last, hs⟩
  · rw [h0, value_nil] at hval
    rw [h0]
    exact ⟨by rw [LittleEndian.decode]; exact_mod_cast hval, by simp⟩
  · rw [hs, value_concat] at hval
    have hlast : last.toNat < 128 := by
      by_contra hge
      rw [if_pos (by omega)] at hval
      have hv : v = 0 := by omega
      have h0 : encode (v : Int) = [] := by rw [hv]; exact encode_zero
      rw [h0] at hs
      simp at hs
    rw [if_neg (by omega)] at hval
    rw [hs, decode_append]
    refine ⟨?_, by simpa using hlast⟩
    simp only [LittleEndian.decode, Nat.mul_zero, Nat.add_zero]
    exact_mod_cast hval

/-- A number that is not negative and fits beside a sign is written with a fixed width. -/
theorem resize_encode {v k : Nat} (h : v < 128 * 256 ^ k) :
    resize (encode v) (k + 1) = .ok (LittleEndian.encode (k + 1) v) := by
  have hlen : (encode (v : Int)).length ≤ k + 1 := by
    rw [length_encode_le_iff]
    simpa using h
  obtain ⟨hd, hlast⟩ := encode_natCast v
  have hfill : ∀ bs : Bytes, bs.length = k + 1 → LittleEndian.decode bs = v →
      bs = LittleEndian.encode (k + 1) v := by
    intro bs hbs hv
    rw [LittleEndian.eq_encode_of_length hbs, hv]
  rcases Nat.lt_or_ge (encode (v : Int)).length (k + 1) with hlt | hge
  · rcases List.eq_nil_or_concat' (encode (v : Int)) with h0 | ⟨init, last, hs⟩
    · rw [h0] at hd ⊢
      rw [resize, if_neg (by simp), if_neg (by simp)]
      refine congrArg Except.ok (hfill _ (by simp) ?_)
      rw [← hd, ← LittleEndian.encode_zero, decode_encode_of_lt (by positivity)]
      rfl
    · have hbyte := hlast last (by rw [hs, List.getLast?_concat])
      have hlow := low_of_lt hbyte
      have hhigh : last &&& 0x80 = 0 := by
        apply UInt8.toNat_inj.1
        rw [toNat_high, signBit_eq]
        simp
        omega
      rw [hs] at hd hlt ⊢
      rw [List.length_append, List.length_singleton] at hlt
      rw [resize_concat hlt, hlow, hhigh]
      refine congrArg Except.ok (hfill _ (by simp; omega) ?_)
      rw [decode_append, decode_append, hd, ← LittleEndian.encode_zero, decode_encode_of_lt (by positivity)]
      simp [LittleEndian.decode]
  · rw [resize, if_neg (by omega), if_pos (by omega)]
    exact congrArg Except.ok (hfill _ (by omega) hd)

/-- A string counts as true if and only if it does not stand for zero. -/
theorem isTrue_iff (bs : Bytes) : isTrue bs = true ↔ value bs ≠ 0 := by
  rcases List.eq_nil_or_concat' bs with rfl | ⟨init, last, rfl⟩
  · simp [isTrue]
  · have hinit : init.any (· != 0) = true ↔ LittleEndian.decode init ≠ 0 := by
      rw [Ne, LittleEndian.decode_eq_zero_iff]
      simp
    have hlow : (last &&& 0x7f != 0) = true ↔ last.toNat % 128 ≠ 0 := by
      rw [bne_iff_ne, Ne, low_eq_zero_iff]
    have hpow : 0 < 256 ^ init.length := by positivity
    have hmul : 256 ^ init.length * (last.toNat % 128) = 0 ↔ last.toNat % 128 = 0 := by
      rw [Nat.mul_eq_zero]
      omega
    simp only [isTrue, List.getLast?_concat, List.dropLast_concat, Bool.or_eq_true, hinit, hlow]
    rw [value_concat]
    split_ifs with hsign
    · omega
    · have hmod : last.toNat % 128 = last.toNat := by omega
      rw [hmod] at hmul ⊢
      omega

@[simp] theorem isTrue_ofBool (b : Bool) : isTrue (ofBool b) = b := by
  cases b <;> rfl

end ShareCovenant.Number
