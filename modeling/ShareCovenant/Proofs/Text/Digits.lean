import Mathlib
import ShareCovenant.Bytes.Hex
import ShareCovenant.Proofs.Bytes
import ShareCovenant.Proofs.Except
import ShareCovenant.Text.Decimal

/-!
# Decimal and hexadecimal texts

A numeral is read if and only if it is an optional plus sign and digits of a number within the bound. A
hexadecimal text is read if and only if it is, but for the case of its digits, what is written for some bytes.
-/

namespace ShareCovenant

/-! ## Numerals -/

namespace Decimal

/-- An optional plus sign, and then one or more digits that spell the number. -/
def IsNumeral (cs : List Char) (n : Nat) : Prop :=
  ∃ digits, (cs = digits ∨ cs = '+' :: digits) ∧ digits ≠ [] ∧ (∀ c ∈ digits, c.isDigit = true) ∧
    Nat.ofDigitChars 10 digits 0 = n

theorem digit?_eq_some_iff (c : Char) (d : Nat) :
    digit? c = some d ↔ c.isDigit = true ∧ c.toNat - '0'.toNat = d := by
  have hdigit : c.isDigit = true ↔ '0' ≤ c ∧ c ≤ '9' := by
    simp only [Char.isDigit, Bool.and_eq_true, decide_eq_true_eq]
    rfl
  unfold digit?
  split_ifs with h
  · rw [Option.some.injEq, hdigit, and_iff_right h]
  · rw [hdigit]
    simp [h]

theorem le_ofDigitChars (n : Nat) (cs : List Char) : n ≤ Nat.ofDigitChars 10 cs n := by
  rw [Nat.ofDigitChars_eq_ofDigitChars_zero]
  have hpow : 1 ≤ 10 ^ cs.length := Nat.one_le_pow _ _ (by decide)
  have := Nat.mul_le_mul_right n hpow
  omega

/-- Digits are read if their number does not exceed the bound, however many they are. -/
theorem readFrom_eq_ok_iff {max n m : Nat} {cs : List Char} (hn : n ≤ max) :
    readFrom max n cs = .ok m ↔ (∀ c ∈ cs, c.isDigit = true) ∧ Nat.ofDigitChars 10 cs n = m ∧ m ≤ max := by
  induction cs generalizing n with
  | nil =>
      rw [readFrom, Except.ok.injEq, Nat.ofDigitChars_nil]
      constructor
      · rintro rfl
        exact ⟨List.forall_mem_nil _, rfl, hn⟩
      · exact fun h => h.2.1
  | cons c cs ih =>
      rw [readFrom, List.forall_mem_cons, Nat.ofDigitChars_cons]
      cases hd : digit? c with
      | none =>
          have hc : ¬c.isDigit = true := fun h => by
            rw [(digit?_eq_some_iff c _).2 ⟨h, rfl⟩] at hd
            cases hd
          simp [hc]
      | some d =>
          obtain ⟨hc, rfl⟩ := (digit?_eq_some_iff c d).1 hd
          simp only [hc, true_and]
          split_ifs with hle
          · exact ih hle
          · have := le_ofDigitChars (10 * n + (c.toNat - '0'.toNat)) cs
            refine iff_of_false (by simp) ?_
            rintro ⟨-, rfl, hm⟩
            omega

/-- Behind a plus sign there are digits only, which leaves one way to read a numeral. -/
theorem isNumeral_cons_iff {c : Char} {cs : List Char} {n : Nat} :
    IsNumeral (c :: cs) n ↔
      if c = '+' then cs ≠ [] ∧ (∀ d ∈ cs, d.isDigit = true) ∧ Nat.ofDigitChars 10 cs 0 = n
      else (∀ d ∈ c :: cs, d.isDigit = true) ∧ Nat.ofDigitChars 10 (c :: cs) 0 = n := by
  have hplus : ¬ '+'.isDigit = true := by decide
  unfold IsNumeral
  split_ifs with hc
  · subst hc
    constructor
    · rintro ⟨digits, rfl | hcs, hne, hdigits, hvalue⟩
      · exact absurd (hdigits '+' List.mem_cons_self) hplus
      · cases hcs
        exact ⟨hne, hdigits, hvalue⟩
    · rintro ⟨hne, hdigits, hvalue⟩
      exact ⟨cs, .inr rfl, hne, hdigits, hvalue⟩
  · constructor
    · rintro ⟨digits, rfl | hcs, -, hdigits, hvalue⟩
      · exact ⟨hdigits, hvalue⟩
      · cases hcs
        exact absurd rfl hc
    · rintro ⟨hdigits, hvalue⟩
      exact ⟨c :: cs, .inl rfl, List.cons_ne_nil _ _, hdigits, hvalue⟩

theorem read_cons (max : Nat) (c : Char) (cs : List Char) :
    read max (c :: cs) =
      if c = '+' then if cs = [] then .error .badDigit else readFrom max 0 cs else readFrom max 0 (c :: cs) := by
  split_ifs with hc hcs
  · rw [hc, hcs, read]
  · rw [hc, read]
    exact fun h => hcs h
  · rw [read]
    · exact List.cons_ne_nil _ _
    · rintro ⟨⟩
      exact hc rfl
    · rintro _ ⟨⟩
      exact hc rfl

theorem read_eq_ok_iff {max n : Nat} {cs : List Char} : read max cs = .ok n ↔ IsNumeral cs n ∧ n ≤ max := by
  cases cs with
  | nil =>
      refine iff_of_false (by simp [read]) ?_
      rintro ⟨⟨digits, rfl | hcs, hne, -⟩, -⟩
      · exact hne rfl
      · cases hcs
  | cons c cs =>
      rw [read_cons, isNumeral_cons_iff]
      split_ifs with hc hcs
      · simp [hcs]
      · rw [readFrom_eq_ok_iff (Nat.zero_le max), and_iff_right hcs, and_assoc]
      · rw [readFrom_eq_ok_iff (Nat.zero_le max), and_assoc]

theorem readUInt32_eq_ok_iff {cs : List Char} {n : UInt32} :
    readUInt32 cs = .ok n ↔ IsNumeral cs n.toNat := by
  rw [readUInt32, map_eq_ok_iff]
  constructor
  · rintro ⟨m, hread, rfl⟩
    obtain ⟨hm, hmax⟩ := read_eq_ok_iff.1 hread
    rwa [UInt32.toNat_ofNat_of_lt' (show m < 2 ^ 32 by omega)]
  · intro h
    have hn := n.toNat_lt
    exact ⟨n.toNat, read_eq_ok_iff.2 ⟨h, by omega⟩, UInt32.ofNat_toNat⟩

theorem exists_readUInt32_iff {cs : List Char} :
    (∃ n, readUInt32 cs = .ok n) ↔ ∃ n, IsNumeral cs n ∧ n ≤ 2 ^ 32 - 1 := by
  simp only [readUInt32_eq_ok_iff]
  constructor
  · rintro ⟨n, h⟩
    have hn := n.toNat_lt
    exact ⟨n.toNat, h, by omega⟩
  · rintro ⟨n, h, hn⟩
    exact ⟨UInt32.ofNat n, by rwa [UInt32.toNat_ofNat_of_lt' (show n < 2 ^ 32 by omega)]⟩

theorem isNumeral_toDigits (n : Nat) : IsNumeral (Nat.toDigits 10 n) n :=
  ⟨_, .inl rfl, Nat.toDigits_ne_nil, fun _ hc => Nat.isDigit_of_mem_toDigits (by decide) (by decide) hc,
    Nat.ofDigitChars_ten_toDigits⟩

theorem IsNumeral.colon_not_mem {cs : List Char} {n : Nat} (h : IsNumeral cs n) : ':' ∉ cs := by
  obtain ⟨digits, hcs, -, hdigits, -⟩ := h
  have hcolon : ':' ∉ digits := fun hmem => absurd (hdigits ':' hmem) (by decide)
  rcases hcs with rfl | rfl
  · exact hcolon
  · rw [List.mem_cons, not_or]
    exact ⟨by decide, hcolon⟩

end Decimal

/-! ## Hexadecimal texts -/

namespace Hex

/-- The digits of either case. -/
def digits : List Char :=
  ['0', '1', '2', '3', '4', '5', '6', '7', '8', '9', 'a', 'b', 'c', 'd', 'e', 'f', 'A', 'B', 'C', 'D', 'E', 'F']

theorem mem_digits_of_range {c : Char} (h : ('0' ≤ c ∧ c ≤ '9') ∨ ('a' ≤ c ∧ c ≤ 'f') ∨ ('A' ≤ c ∧ c ≤ 'F')) :
    c ∈ digits := by
  have hnat : (48 ≤ c.toNat ∧ c.toNat ≤ 57) ∨ (97 ≤ c.toNat ∧ c.toNat ≤ 102) ∨ (65 ≤ c.toNat ∧ c.toNat ≤ 70) := h
  rw [← Char.ofNat_toNat c]
  rcases hnat with ⟨hlow, hhigh⟩ | ⟨hlow, hhigh⟩ | ⟨hlow, hhigh⟩
  all_goals
    interval_cases c.toNat
    all_goals decide

/-- Digits of either case are read, and are written in lower case. -/
theorem exists_digit?_of_mem {c : Char} (h : c ∈ digits) :
    ∃ n < 16, digit? c = some n ∧ c.toLower = digit n := by
  unfold digits at h
  fin_cases h
  all_goals exact ⟨_, by decide, rfl, rfl⟩

theorem mem_digits_of_digit? {c : Char} {n : Nat} (h : digit? c = some n) : c ∈ digits := by
  unfold digit? at h
  split_ifs at h with h1 h2 h3
  · exact mem_digits_of_range (.inl h1)
  · exact mem_digits_of_range (.inr (.inl h2))
  · exact mem_digits_of_range (.inr (.inr h3))

theorem digit_inj : ∀ m < 16, ∀ n < 16, digit m = digit n → m = n := by decide

theorem digit?_eq_some_iff {c : Char} {n : Nat} : digit? c = some n ↔ c ∈ digits ∧ n < 16 ∧ c.toLower = digit n := by
  constructor
  · intro h
    have hc := mem_digits_of_digit? h
    obtain ⟨m, hm, hread, hwrite⟩ := exists_digit?_of_mem hc
    rw [h] at hread
    cases hread
    exact ⟨hc, hm, hwrite⟩
  · rintro ⟨hc, hn, hwrite⟩
    obtain ⟨m, hm, hread, hwrite'⟩ := exists_digit?_of_mem hc
    rw [hread, digit_inj m hm n hn (hwrite'.symm.trans hwrite)]

theorem digit_mem_digits : ∀ n < 16, digit n ∈ digits ∧ (digit n).toLower = digit n := by decide

theorem encodeChars_cons (b : UInt8) (bytes : Bytes) :
    encodeChars (b :: bytes) = digit (b.toNat / 16) :: digit (b.toNat % 16) :: encodeChars bytes := rfl

theorem length_encodeChars (bytes : Bytes) : (encodeChars bytes).length = 2 * bytes.length := by
  induction bytes with
  | nil => rfl
  | cons b bytes ih =>
      rw [encodeChars_cons, List.length_cons, List.length_cons, List.length_cons, ih]
      omega

theorem mem_digits_of_mem_encodeChars {bytes : Bytes} {c : Char} (h : c ∈ encodeChars bytes) :
    c ∈ digits ∧ c.toLower = c := by
  obtain ⟨b, -, hc⟩ := List.mem_flatMap.1 h
  have hb := b.toNat_lt
  simp only [encodeByte, List.mem_cons, List.not_mem_nil, or_false] at hc
  rcases hc with rfl | rfl
  · exact digit_mem_digits _ (by omega)
  · exact digit_mem_digits _ (by omega)

/-- A text spells bytes if it holds digits that, in lower case, are those of the bytes. -/
def Spells (text : List Char) (bytes : Bytes) : Prop :=
  (∀ c ∈ text, c ∈ digits) ∧ text.map Char.toLower = encodeChars bytes

theorem Spells.length_eq {text : List Char} {bytes : Bytes} (h : Spells text bytes) :
    text.length = 2 * bytes.length := by
  rw [← length_encodeChars, ← h.2, List.length_map]

theorem spells_encodeChars (bytes : Bytes) : Spells (encodeChars bytes) bytes := by
  refine ⟨fun c hc => (mem_digits_of_mem_encodeChars hc).1, ?_⟩
  calc (encodeChars bytes).map Char.toLower
      = (encodeChars bytes).map id := List.map_congr_left fun c hc => (mem_digits_of_mem_encodeChars hc).2
    _ = encodeChars bytes := List.map_id _

/-- Two digits spell the byte in front. -/
theorem spells_cons_iff {high low : Char} {rest : List Char} {bytes : Bytes} :
    Spells (high :: low :: rest) bytes ↔
      ∃ h l tail, digit? high = some h ∧ digit? low = some l ∧ Spells rest tail ∧
        bytes = UInt8.ofNat (16 * h + l) :: tail := by
  unfold Spells
  simp only [digit?_eq_some_iff, List.forall_mem_cons, List.map_cons]
  constructor
  · rintro ⟨⟨hhigh, hlow, hrest⟩, hmap⟩
    cases bytes with
    | nil => cases hmap
    | cons b tail =>
        rw [encodeChars_cons, List.cons.injEq, List.cons.injEq] at hmap
        have hb := b.toNat_lt
        refine ⟨b.toNat / 16, b.toNat % 16, tail, ⟨hhigh, by omega, hmap.1⟩, ⟨hlow, by omega, hmap.2.1⟩,
          ⟨hrest, hmap.2.2⟩, ?_⟩
        rw [Nat.div_add_mod, UInt8.ofNat_toNat]
  · rintro ⟨h, l, tail, ⟨hhigh, hh, hhigh'⟩, ⟨hlow, hl, hlow'⟩, ⟨hrest, hrest'⟩, rfl⟩
    have hbyte : (UInt8.ofNat (16 * h + l)).toNat = 16 * h + l :=
      UInt8.toNat_ofNat_of_lt' (show 16 * h + l < 256 by omega)
    have hdiv : (16 * h + l) / 16 = h := by omega
    have hmod : (16 * h + l) % 16 = l := by omega
    refine ⟨⟨hhigh, hlow, hrest⟩, ?_⟩
    rw [encodeChars_cons, hbyte, hdiv, hmod, hhigh', hlow', hrest']

theorem readDigit_eq_ok_iff {position : Nat} {c : Char} {n : Nat} :
    readDigit position c = .ok n ↔ digit? c = some n := by
  unfold readDigit
  cases digit? c <;> simp

theorem decodeFrom_eq_ok_iff {position : Nat} {text : List Char} {bytes : Bytes} :
    decodeFrom position text = .ok bytes ↔ Spells text bytes := by
  induction position, text using decodeFrom.induct generalizing bytes with
  | case1 position =>
      rw [decodeFrom, Except.ok.injEq]
      constructor
      · rintro rfl
        exact spells_encodeChars []
      · intro h
        have hlen := h.length_eq
        rw [List.length_nil] at hlen
        exact (List.length_eq_zero_iff.1 (by omega)).symm
  | case2 position c =>
      refine iff_of_false (by simp [decodeFrom]) fun h => ?_
      have hlen := h.length_eq
      rw [List.length_singleton] at hlen
      omega
  | case3 position high low rest ih =>
      rw [spells_cons_iff, decodeFrom, bind_eq_ok_iff]
      simp only [bind_eq_ok_iff, readDigit_eq_ok_iff, ih, pure, Except.pure, Except.ok.injEq]
      constructor
      · rintro ⟨h, hhigh, l, hlow, tail, hrest, rfl⟩
        exact ⟨h, l, tail, hhigh, hlow, hrest, rfl⟩
      · rintro ⟨h, l, tail, hhigh, hlow, hrest, rfl⟩
        exact ⟨h, hhigh, l, hlow, tail, hrest, rfl⟩

theorem decode_eq_ok_iff {text : List Char} {bytes : Bytes} : decode text = .ok bytes ↔ Spells text bytes := by
  rw [decode]
  split_ifs with hlen
  · exact decodeFrom_eq_ok_iff
  · refine iff_of_false (by simp) fun h => hlen ?_
    rw [h.length_eq]
    omega

theorem decodeFixed?_eq_some_iff {n : Nat} {text : List Char} {bytes : FixedBytes n} :
    decodeFixed? n text = some bytes ↔ Spells text bytes.val := by
  rw [← decode_eq_ok_iff, decodeFixed?]
  cases decode text with
  | error e => simp
  | ok read => simp [FixedBytes.ofBytes?_eq_some_iff]

/-- As many digits as the bytes need spell some bytes. -/
theorem exists_spells {n : Nat} {text : List Char} (hlen : text.length = 2 * n) (h : ∀ c ∈ text, c ∈ digits) :
    ∃ bytes : FixedBytes n, Spells text bytes.val := by
  induction n generalizing text with
  | zero =>
      obtain rfl := List.length_eq_zero_iff.1 hlen
      exact ⟨FixedBytes.zero 0, spells_encodeChars []⟩
  | succ n ih =>
      match text, hlen, h with
      | high :: low :: rest, hlen, h =>
          obtain ⟨hhigh, hlow, hrest⟩ : high ∈ digits ∧ low ∈ digits ∧ ∀ c ∈ rest, c ∈ digits := by
            simpa only [List.forall_mem_cons] using h
          obtain ⟨m, -, hm, -⟩ := exists_digit?_of_mem hhigh
          obtain ⟨l, -, hl, -⟩ := exists_digit?_of_mem hlow
          obtain ⟨tail, htail⟩ := ih (by simpa [Nat.mul_succ] using hlen) hrest
          refine ⟨⟨UInt8.ofNat (16 * m + l) :: tail.val, by simp [tail.property]⟩, ?_⟩
          exact spells_cons_iff.2 ⟨m, l, tail.val, hm, hl, htail, rfl⟩

end Hex

end ShareCovenant
