import Mathlib
import ShareCovenant.Address.Symbol

/-!
# Characters and bits of symbols

A character stands for at most one symbol. Regrouping the bits of bytes into symbols fills up the last one with
zeros, and regrouping back accepts nothing else: symbols are read as a byte string if and only if they are the
symbols of that byte string.
-/

namespace ShareCovenant.Symbol

/-! ## Characters -/

theorem ofChar?_toChar : ∀ s : Symbol, ofChar? s.toChar = some s := by
  decide

theorem toChar_ofNat : ∀ i : Fin alphabet.length, toChar (BitVec.ofNat 5 i) = alphabet[i] := by
  decide

theorem ofChar?_eq_some_iff {c : Char} {s : Symbol} : ofChar? c = some s ↔ c = s.toChar := by
  constructor
  · intro h
    obtain ⟨i, hi, rfl⟩ := Option.map_eq_some_iff.1 h
    obtain ⟨hlt, hget, -⟩ := List.idxOf?_eq_some_iff.1 hi
    exact (toChar_ofNat ⟨i, hlt⟩ ▸ hget).symm
  · rintro rfl
    exact ofChar?_toChar s

theorem toChar_injective : Function.Injective toChar := by
  intro s t h
  exact Option.some.inj ((ofChar?_toChar s).symm.trans (ofChar?_eq_some_iff.2 h))

theorem isUpper_toChar : ∀ s : Symbol, s.toChar.isUpper = false := by
  decide

theorem toChar_ne_colon : ∀ s : Symbol, s.toChar ≠ ':' := by
  decide

theorem mapM_ofChar?_eq_some_iff {cs : List Char} {symbols : List Symbol} :
    cs.mapM ofChar? = some symbols ↔ cs = symbols.map toChar := by
  induction cs generalizing symbols with
  | nil => cases symbols <;> simp
  | cons c cs ih =>
      rw [List.mapM_cons]
      simp only [Option.bind_eq_bind, Option.bind_eq_some_iff, ofChar?_eq_some_iff, ih]
      cases symbols <;> simp

/-! ## The bits of a number -/

theorem bitsOf_succ (width n : Nat) : bitsOf (width + 1) n = bitsOf width (n / 2) ++ [n.testBit 0] := by
  induction width with
  | zero => rfl
  | succ width ih => rw [bitsOf, ih, bitsOf, Nat.testBit_succ, List.cons_append]

theorem ofBits_concat (bits : List Bool) (b : Bool) : ofBits (bits ++ [b]) = 2 * ofBits bits + b.toNat := by
  simp [ofBits]

theorem length_bitsOf (width n : Nat) : (bitsOf width n).length = width := by
  induction width with
  | zero => rfl
  | succ width ih => rw [bitsOf, List.length_cons, ih]

theorem ofBits_bitsOf (width n : Nat) : ofBits (bitsOf width n) = n % 2 ^ width := by
  induction width generalizing n with
  | zero => simp [bitsOf, ofBits, Nat.mod_one]
  | succ width ih =>
      rw [bitsOf_succ, ofBits_concat, ih, pow_succ', Nat.mod_mul, Nat.testBit_zero]
      rcases Nat.mod_two_eq_zero_or_one n with hbit | hbit <;> simp [hbit, Nat.add_comm]

theorem bitsOf_ofBits (bits : List Bool) : bitsOf bits.length (ofBits bits) = bits := by
  induction bits using List.reverseRecOn with
  | nil => rfl
  | append_singleton bits b ih =>
      have hdiv : (2 * ofBits bits + b.toNat) / 2 = ofBits bits := by
        cases b <;> simp
        omega
      have hbit : (2 * ofBits bits + b.toNat).testBit 0 = b := by cases b <;> simp
      rw [List.length_append, List.length_singleton, bitsOf_succ, ofBits_concat, hdiv, ih, hbit]

theorem ofBits_lt (bits : List Bool) : ofBits bits < 2 ^ bits.length := by
  rw [← bitsOf_ofBits bits, length_bitsOf, ofBits_bitsOf]
  exact Nat.mod_lt _ (by positivity)

theorem bitsOf_symbol {bits : List Bool} (h : bits.length = 5) :
    bitsOf 5 (BitVec.ofNat 5 (ofBits bits)).toNat = bits := by
  have hlt := ofBits_lt bits
  rw [h] at hlt
  rw [BitVec.toNat_ofNat, Nat.mod_eq_of_lt hlt, ← h, bitsOf_ofBits]

theorem bitsOf_byte {bits : List Bool} (h : bits.length = 8) :
    bitsOf 8 (UInt8.ofNat (ofBits bits)).toNat = bits := by
  have hlt := ofBits_lt bits
  rw [h] at hlt
  rw [UInt8.toNat_ofNat', Nat.mod_eq_of_lt hlt, ← h, bitsOf_ofBits]

theorem ofBits_symbol (s : Symbol) : BitVec.ofNat 5 (ofBits (bitsOf 5 s.toNat)) = s := by
  rw [ofBits_bitsOf, Nat.mod_eq_of_lt s.isLt, BitVec.ofNat_toNat, BitVec.setWidth_eq]

theorem ofBits_byte (b : UInt8) : UInt8.ofNat (ofBits (bitsOf 8 b.toNat)) = b := by
  rw [ofBits_bitsOf, Nat.mod_eq_of_lt b.toNat_lt, UInt8.ofNat_toNat]

/-! ## Bits in groups of five -/

theorem symbolBits_cons (s : Symbol) (symbols : List Symbol) :
    symbolBits (s :: symbols) = bitsOf 5 s.toNat ++ symbolBits symbols := rfl

theorem length_symbolBits (symbols : List Symbol) : (symbolBits symbols).length = 5 * symbols.length := by
  induction symbols with
  | nil => rfl
  | cons s symbols ih =>
      rw [symbolBits_cons, List.length_append, length_bitsOf, ih, List.length_cons]
      omega

theorem pack_symbolBits (symbols : List Symbol) : pack (symbolBits symbols) = symbols := by
  induction symbols with
  | nil => rfl
  | cons s symbols ih =>
      have hs := ofBits_symbol s
      rw [symbolBits_cons]
      simp only [bitsOf, List.cons_append, List.nil_append, pack] at hs ⊢
      rw [hs, ih]

theorem symbolBits_injective : Function.Injective symbolBits := by
  intro v w h
  rw [← pack_symbolBits v, h, pack_symbolBits]

/-- Packed bits are followed by fewer than five zeros. -/
theorem exists_symbolBits_pack (bits : List Bool) :
    ∃ k < 5, symbolBits (pack bits) = bits ++ List.replicate k false := by
  fun_induction pack bits with
  | case1 a b c d e rest ih =>
      obtain ⟨k, hk, hrest⟩ := ih
      refine ⟨k, hk, ?_⟩
      rw [symbolBits_cons, hrest, bitsOf_symbol rfl]
      rfl
  | case2 => exact ⟨0, by decide, rfl⟩
  | case3 bits hlong hne =>
      have hlen : 0 < bits.length := List.length_pos_iff.2 hne
      have hlt : bits.length < 5 := by
        match bits, hlong with
        | [], _ | [_], _ | [_, _], _ | [_, _, _], _ | [_, _, _, _], _ => simp
        | a :: b :: c :: d :: e :: rest, hlong => exact absurd rfl (hlong a b c d e rest)
      refine ⟨5 - bits.length, by omega, ?_⟩
      rw [symbolBits_cons, bitsOf_symbol (by simp; omega)]
      exact List.append_nil _

/-! ## Bits in groups of eight -/

theorem byteBits_cons (b : UInt8) (bytes : Bytes) : byteBits (b :: bytes) = bitsOf 8 b.toNat ++ byteBits bytes := rfl

theorem unpack?_replicate {k : Nat} (h : k < 5) : unpack? (List.replicate k false) = some [] := by
  interval_cases k <;> rfl

theorem unpack?_eq_some_iff {bits : List Bool} {bytes : Bytes} :
    unpack? bits = some bytes ↔ ∃ k < 5, bits = byteBits bytes ++ List.replicate k false := by
  constructor
  · intro h
    fun_induction unpack? bits generalizing bytes with
    | case1 a b c d e f g i rest ih =>
        obtain ⟨bytes, hrest, rfl⟩ := Option.map_eq_some_iff.1 h
        obtain ⟨k, hk, rfl⟩ := ih hrest
        refine ⟨k, hk, ?_⟩
        rw [byteBits_cons, bitsOf_byte rfl]
        rfl
    | case2 bits _ hbits =>
        obtain ⟨hlen, hzero⟩ := hbits
        cases h
        refine ⟨bits.length, hlen, List.eq_replicate_iff.2 ⟨rfl, ?_⟩⟩
        simpa using hzero
    | case3 => cases h
  · rintro ⟨k, hk, rfl⟩
    induction bytes with
    | nil => exact unpack?_replicate hk
    | cons b bytes ih =>
        have hb := ofBits_byte b
        rw [byteBits_cons, List.append_assoc]
        simp only [bitsOf, List.cons_append, List.nil_append, unpack?] at hb ⊢
        rw [hb, ih]
        rfl

/-- The symbols of a byte string are the only ones that are read as it. -/
theorem toBytes?_eq_some_iff {symbols : List Symbol} {bytes : Bytes} :
    toBytes? symbols = some bytes ↔ symbols = ofBytes bytes := by
  obtain ⟨k, hk, hpack⟩ := exists_symbolBits_pack (byteBits bytes)
  rw [toBytes?, unpack?_eq_some_iff, ofBytes]
  constructor
  · rintro ⟨k', hk', hbits⟩
    -- both paddings are shorter than a symbol, and whole symbols remain
    have hlen := congrArg List.length hpack
    have hlen' := congrArg List.length hbits
    rw [length_symbolBits, List.length_append, List.length_replicate] at hlen hlen'
    have hsame : k = k' := by omega
    apply symbolBits_injective
    rw [hbits, hpack, hsame]
  · rintro rfl
    exact ⟨k, hk, hpack⟩

end ShareCovenant.Symbol
