import Mathlib
import ShareCovenant.Proofs.Spend.Completeness

/-!
# Accepted spends that pay nobody

If nobody is due, the program reads the outputs from the last byte to the first as one number and compares it
with that of the output that pays nobody. Zeros in front of the outputs do not count in that number, and there
are outputs of nothing but zeros: those of no amount to the empty script. So the program accepts some of them
before the output that pays nobody, and nothing else.
-/

namespace ShareCovenant

open Covenant

/-- An output of no amount to the empty script. Its bytes are zeros. -/
def blankOutput : Output := { amount := 0, lockingScript := [] }

/-! ## Bytes after zeros -/

/-- The bytes of the output that pays nobody, read as one number from the last to the first, are known up to the
zeros in front. -/
theorem value_reverse_eq_iff (bs : Bytes) :
    Number.value bs.reverse = Number.value noPayoutOutput.bytes.reverse ↔
      bs.dropWhile (· == 0) = [1, Opcode.unspendable] := by
  have hnumber : Number.value noPayoutOutput.bytes.reverse = (362 : Nat) := by decide
  have hdecode : 362 = LittleEndian.decode [Opcode.unspendable, 1] := by decide
  have hdrop : Number.dropHighZeros bs.reverse = (bs.dropWhile (· == 0)).reverse := by
    rw [Number.dropHighZeros, List.reverse_reverse]
  rw [hnumber, Number.value_eq_natCast_iff (k := 1) (by decide) (by decide), hdecode,
    Number.decode_eq_decode_iff (by decide), hdrop, List.reverse_eq_iff]
  rfl

theorem dropWhile_zero_append (x : Bytes) :
    (LittleEndian.encode 8 (0 : UInt64).toNat ++ x).dropWhile (· == 0) = x.dropWhile (· == 0) := by
  refine List.dropWhile_append_of_pos fun b hb => ?_
  change b ∈ LittleEndian.encode 8 0 at hb
  rw [LittleEndian.encode_zero] at hb
  rw [List.eq_of_mem_replicate hb]
  rfl

/-- After an amount that is not zero, the length of a script is left, and then that many bytes. -/
theorem dropWhile_append_of_ne_zero {amount : UInt64} (h : amount ≠ 0) (script x : Bytes) :
    (LittleEndian.encode 8 amount.toNat ++ (CompactSize.encodeBytes script ++ x)).dropWhile (· == 0) ≠
      [1, Opcode.unspendable] := by
  obtain ⟨tag, rest, htag, hcases⟩ := CompactSize.exists_encode_eq_cons script.length
  have hleft : (LittleEndian.encode 8 amount.toNat).dropWhile (· == 0) ≠ [] := by
    intro hnil
    rw [List.dropWhile_eq_nil_iff] at hnil
    simp only [beq_iff_eq] at hnil
    rw [← LittleEndian.decode_eq_zero_iff, LittleEndian.decode_encode_uint64] at hnil
    exact h (UInt64.toNat_inj.1 hnil)
  intro heq
  rw [List.dropWhile_append, if_neg (by simpa using hleft), CompactSize.encodeBytes, htag] at heq
  obtain ⟨first, more, hmore⟩ := List.exists_cons_of_ne_nil hleft
  rw [hmore] at heq
  simp only [List.cons_append, List.append_assoc, List.cons.injEq] at heq
  obtain ⟨-, heq⟩ := heq
  cases more with
  | nil =>
      obtain ⟨rfl, hempty⟩ := List.cons.inj heq
      obtain ⟨-, hempty⟩ := List.append_eq_nil_iff.1 hempty
      obtain ⟨rfl, -⟩ := List.append_eq_nil_iff.1 hempty
      rcases hcases with ⟨-, hbyte, -⟩ | ⟨hlong, -⟩
      · exact absurd hbyte (by decide)
      · exact absurd hlong (by decide)
  | cons second more => simp at heq

/-- The end of an output that pays nobody is left by that output at the end, or by what follows a blank one. -/
theorem dropWhile_bytes_append_iff (o : Output) (x : Bytes) :
    (o.bytes ++ x).dropWhile (· == 0) = [1, Opcode.unspendable] ↔
      (o = blankOutput ∧ x.dropWhile (· == 0) = [1, Opcode.unspendable]) ∨ (o = noPayoutOutput ∧ x = []) := by
  constructor
  · intro h
    obtain ⟨amount, script⟩ := o
    rw [Output.bytes, List.append_assoc] at h
    obtain rfl : amount = 0 := by
      by_contra hamount
      exact dropWhile_append_of_ne_zero hamount script x h
    obtain ⟨tag, rest, htag, hcases⟩ := CompactSize.exists_encode_eq_cons script.length
    rw [dropWhile_zero_append, CompactSize.encodeBytes, htag, List.cons_append, List.cons_append,
      List.dropWhile_cons] at h
    split_ifs at h with hblank
    · -- a length of zero is that of the empty script
      rw [beq_iff_eq] at hblank
      subst hblank
      rcases hcases with ⟨-, hbyte, rfl⟩ | ⟨-, hbyte⟩
      · obtain rfl := List.length_eq_zero_iff.1 hbyte.symm
        exact Or.inl ⟨rfl, h⟩
      · exact absurd hbyte (by decide)
    · obtain ⟨rfl, htail⟩ := List.cons.inj h
      rcases hcases with ⟨-, hbyte, rfl⟩ | ⟨-, hbyte⟩
      · obtain ⟨b, rfl⟩ := List.length_eq_one_iff.1 hbyte.symm
        obtain ⟨rfl, rfl⟩ := List.cons.inj htail
        exact Or.inr ⟨rfl, rfl⟩
      · exact absurd hbyte (by decide)
  · rintro (⟨rfl, h⟩ | ⟨rfl, rfl⟩)
    · rw [Output.bytes, List.append_assoc]
      exact (dropWhile_zero_append _).trans h
    · rw [Output.bytes, List.append_assoc]
      exact dropWhile_zero_append _

/-- Outputs spell the number of the one that pays nobody if and only if they are that one after blank ones. -/
theorem value_listBytes_reverse_eq_iff (os : List Output) :
    Number.value (Output.listBytes os).reverse = Number.value noPayoutOutput.bytes.reverse ↔
      ∃ n, os = List.replicate n blankOutput ++ [noPayoutOutput] := by
  rw [value_reverse_eq_iff]
  -- a blank output leaves the same question to the others, the last one leaves none
  induction os with
  | nil =>
      constructor
      · intro h
        cases h
      · rintro ⟨n, h⟩
        exact absurd h.symm (List.append_ne_nil_of_right_ne_nil _ (List.cons_ne_nil _ _))
  | cons o os ih =>
      rw [Output.listBytes_cons, dropWhile_bytes_append_iff, ih]
      constructor
      · rintro (⟨rfl, n, rfl⟩ | ⟨rfl, hnil⟩)
        · exact ⟨n + 1, rfl⟩
        · cases os with
          | nil => exact ⟨0, rfl⟩
          | cons o' os => exact absurd (List.append_eq_nil_iff.1 hnil).1 (Output.bytes_ne_nil o')
      · rintro ⟨n, h⟩
        cases n with
        | zero =>
            obtain ⟨rfl, rfl⟩ := List.cons.inj h
            exact Or.inr ⟨rfl, rfl⟩
        | succ n =>
            obtain ⟨rfl, rfl⟩ := List.cons.inj h
            exact Or.inl ⟨rfl, n, rfl⟩

theorem length_listBytes_blank (n : Nat) :
    (Output.listBytes (List.replicate n blankOutput ++ [noPayoutOutput])).length = 9 * n + 10 := by
  have hblank : blankOutput.bytes.length = 9 := by decide
  have hlast : noPayoutOutput.bytes.length = 10 := by decide
  induction n with
  | zero => simp [Output.listBytes, hlast]
  | succ n ih =>
      rw [List.replicate_succ, List.cons_append, Output.listBytes_cons, List.length_append, hblank]
      omega

namespace Spend

variable {suite : Suite} {terms : Terms} {contract : Contract} {value : UInt64} {key : suite.curve.Scalar}
  {tx tx' : Transaction} {index : Nat}

/-- If nobody is due, a signed spend is accepted if and only if it has no other input and its last output is the
one that pays nobody, after no more than 56 blank ones. -/
theorem verifySpend_signed_iff_replicate (hc : suite.curve.PrimeOrder)
    (hcompile : Contract.compile (Key.publicKey key) terms = .ok contract)
    (hsign : signInput key tx index value contract = .ok tx') (hmax : value ≤ maxValue)
    (hnone : ¬terms.SomeDue value) :
    Contract.verifySpend suite tx' index value contract = .ok () ↔
      tx'.inputs.length = 1 ∧ ∃ n ≤ 56, tx'.outputs = List.replicate n blankOutput ++ [noPayoutOutput] := by
  obtain ⟨addresses, hvalidate⟩ := Contract.exists_validate hcompile
  have hvalid := Terms.valid_of_validate hvalidate
  have hobeys : Obeys suite terms addresses contract value tx'.outputs ↔
      ∃ n, tx'.outputs = List.replicate n blankOutput ++ [noPayoutOutput] := by
    rw [obeys_iff_of_le hmax, distributes_iff hvalid hmax, value_listBytes_reverse_eq_iff]
    exact ⟨fun h => (h.resolve_left fun hsome => hnone hsome.1).2, fun h => Or.inr ⟨hnone, h⟩⟩
  rw [verifySpend_signed_iff hc hcompile hvalidate hsign, hobeys]
  refine and_congr_right fun _ => ?_
  constructor
  · rintro ⟨hsize, n, houtputs⟩
    rw [houtputs, length_listBytes_blank, maxElementSize] at hsize
    exact ⟨n, by omega, houtputs⟩
  · rintro ⟨n, hn, houtputs⟩
    rw [houtputs, length_listBytes_blank, maxElementSize]
    exact ⟨by omega, n, rfl⟩

/-- An amount that pays nobody is accepted with the output that pays nobody, alone if and only if no output has
the empty script. -/
theorem verifySpend_signed_iff_noPayout (hc : suite.curve.PrimeOrder)
    (hcompile : Contract.compile (Key.publicKey key) terms = .ok contract)
    (hsign : signInput key tx index value contract = .ok tx') (hmode : Payout.mode value terms = .ok .noPayout) :
    (Contract.verifySpend suite tx' index value contract = .ok () ↔
      tx'.inputs.length = 1 ∧ ∃ n ≤ 56, tx'.outputs = List.replicate n blankOutput ++ [noPayoutOutput]) ∧
    (Contract.verifySpend suite tx' index value contract = .ok () →
      (tx'.outputs = [noPayoutOutput] ↔ ∀ o ∈ tx'.outputs, o.lockingScript ≠ [])) := by
  obtain ⟨hmax, hnone⟩ : value ≤ maxValue ∧ ¬terms.SomeDue value := by
    rcases Payout.mode_cases hmode with ⟨-, h⟩ | ⟨hmax, hnone, -⟩ | ⟨-, -, unit, -, h⟩
    · cases h
    · exact ⟨hmax, hnone⟩
    · cases h
  have haccepted := verifySpend_signed_iff_replicate hc hcompile hsign hmax hnone
  refine ⟨haccepted, fun h => ?_⟩
  obtain ⟨-, n, -, houtputs⟩ := haccepted.1 h
  cases n with
  | zero =>
      rw [houtputs]
      decide
  | succ n =>
      rw [houtputs, List.replicate_succ, List.cons_append]
      constructor
      · intro hsole
        cases (List.cons.inj hsole).1
      · intro hscripts
        exact absurd rfl (hscripts blankOutput List.mem_cons_self)

/-- A coin that leaves no unit after the fee. -/
def smallCoin : Coin :=
  { sampleCoin with value := 2500 }

theorem exists_blankSpend :
    ∃ (key : Suite.standard.curve.Scalar) (contract : Contract) (tx : Transaction),
      Contract.compile (Key.publicKey key) sampleTerms = .ok contract ∧
      signInput key (unsigned smallCoin.outpoint [blankOutput, noPayoutOutput]) 0 smallCoin.value contract = .ok tx :=
  exists_signInput_of_publishedSpend
    (show (publishedSpend sampleTerms smallCoin fun _ => [blankOutput, noPayoutOutput]).isSome = true by decide +kernel)

theorem verifySpend_signed_iff_noPayout_sample :
    ∃ (key : Suite.standard.curve.Scalar) (contract : Contract) (tx : Transaction),
      Suite.standard.curve.PrimeOrder ∧ Contract.compile (Key.publicKey key) sampleTerms = .ok contract ∧
      signInput key (unsigned smallCoin.outpoint [blankOutput, noPayoutOutput]) 0 smallCoin.value contract = .ok tx ∧
      Payout.mode smallCoin.value sampleTerms = .ok .noPayout ∧
      Contract.verifySpend Suite.standard tx 0 smallCoin.value contract = .ok () ∧
      (tx.outputs = [noPayoutOutput] ↔ ∀ o ∈ tx.outputs, o.lockingScript ≠ []) := by
  have hmode : Payout.mode smallCoin.value sampleTerms = .ok .noPayout := by decide
  obtain ⟨key, contract, tx, hcompile, hsign⟩ := exists_blankSpend
  obtain ⟨haccepted, hsole⟩ := verifySpend_signed_iff_noPayout Curve.primeOrder_secp256k1 hcompile hsign hmode
  have h := haccepted.2 ⟨length_inputs_of_signInput hsign, 1, by decide, outputs_of_signInput hsign⟩
  exact ⟨key, contract, tx, Curve.primeOrder_secp256k1, hcompile, hsign, hmode, h, hsole h⟩

/-- The output that pays nobody is accepted after another one. -/
theorem not_sole_noPayout_of_blank :
    ∃ (key : Suite.standard.curve.Scalar) (contract : Contract) (tx : Transaction),
      Contract.compile (Key.publicKey key) sampleTerms = .ok contract ∧
      signInput key (unsigned smallCoin.outpoint [blankOutput, noPayoutOutput]) 0 smallCoin.value contract = .ok tx ∧
      smallCoin.value ≤ maxValue ∧ Payout.mode smallCoin.value sampleTerms = .ok .noPayout ∧
      Contract.verifySpend Suite.standard tx 0 smallCoin.value contract = .ok () ∧
      tx.outputs ≠ [noPayoutOutput] := by
  have hmax : smallCoin.value ≤ maxValue := by decide
  have hnone : ¬sampleTerms.SomeDue smallCoin.value := by
    rw [Terms.someDue_iff (show Share.minUnitForAll sampleTerms.parties = .ok 1 from rfl)]
    decide
  obtain ⟨key, contract, tx, hcompile, hsign⟩ := exists_blankSpend
  have houtputs : tx.outputs = [blankOutput, noPayoutOutput] := outputs_of_signInput hsign
  have haccepted := (verifySpend_signed_iff_replicate Curve.primeOrder_secp256k1 hcompile hsign hmax hnone).2
    ⟨length_inputs_of_signInput hsign, 1, by decide, houtputs⟩
  refine ⟨key, contract, tx, hcompile, hsign, hmax, by decide, haccepted, ?_⟩
  rw [houtputs]
  decide

end Spend

end ShareCovenant
