import Mathlib
import ShareCovenant.Proofs.Covenant.Headroom
import ShareCovenant.Proofs.Spend.Completeness

/-!
# Accepted splits

Of the transactions that are signed with the key of a contract and spend an amount above the largest one,
exactly those are accepted that return it in two outputs whose amounts add up with the fee, as the program reads
them. An amount with a free sign bit is read as it stands. One with the sign bit set is read as less than it is,
so that two outputs may be accepted that return more than there was.
-/

namespace ShareCovenant.Spend

open Covenant

variable {suite : Suite} {terms : Terms} {contract : Contract} {value : UInt64} {key : suite.curve.Scalar}
  {tx tx' : Transaction} {index : Nat}

theorem length_listBytes_own (contract : Contract) (v₁ v₂ : UInt64) :
    (Output.listBytes [⟨v₁, contract.lockingScript suite⟩, ⟨v₂, contract.lockingScript suite⟩]).length ≤
      maxElementSize := by
  have hscript : (contract.lockingScript suite).length = 23 := length_scriptHashLock _
  refine (Output.length_listBytes_le ?_).trans (show 34 * 2 ≤ maxElementSize by decide)
  simp [hscript]

/-- A signed spend of a split amount is accepted if and only if it has no other input and returns the amount in
two outputs, as their amounts are read. -/
theorem verifySpend_signed_iff_signedAmount (hc : suite.curve.PrimeOrder)
    (hcompile : Contract.compile (Key.publicKey key) terms = .ok contract)
    (hsign : signInput key tx index value contract = .ok tx') (hmin : maxValue < value)
    (hmax : value.toNat < 2 ^ 63) :
    Contract.verifySpend suite tx' index value contract = .ok () ↔
      tx'.inputs.length = 1 ∧ ∃ v₁ v₂ : UInt64,
        tx'.outputs = [⟨v₁, contract.lockingScript suite⟩, ⟨v₂, contract.lockingScript suite⟩] ∧
        signedAmount v₁.toNat + signedAmount v₂.toNat + terms.fee.toNat = value.toNat := by
  obtain ⟨addresses, hvalidate⟩ := Contract.exists_validate hcompile
  rw [verifySpend_signed_iff hc hcompile hvalidate hsign, obeys_iff_signedAmount hcompile hmin hmax]
  refine and_congr_right fun _ => ⟨fun h => h.2, fun h => ⟨?_, h⟩⟩
  obtain ⟨v₁, v₂, houtputs, -⟩ := h
  rw [houtputs]
  exact length_listBytes_own contract v₁ v₂

/-! ## Amounts below the sign bit -/

theorem runsInRange_of_verifySpend (hc : suite.curve.PrimeOrder)
    (hcompile : Contract.compile (Key.publicKey key) terms = .ok contract)
    (hsign : signInput key tx index value contract = .ok tx') (hmin : maxValue < value)
    (hmax : value.toNat < 2 ^ 63) (haccepted : Contract.verifySpend suite tx' index value contract = .ok ())
    (ctx : Option SpendContext) (s : Stack) :
    Program.RunsInRange suite ctx (overflowSplit terms.fee.toNat) (LittleEndian.encode 8 value.toNat ::
      CompactSize.encodeBytes contract.script :: Output.listBytes tx'.outputs :: s) s := by
  obtain ⟨addresses, hvalidate⟩ := Contract.exists_validate hcompile
  have hvalid := Terms.valid_of_validate hvalidate
  obtain ⟨-, -, hobeys⟩ := (verifySpend_signed_iff hc hcompile hvalidate hsign).1 haccepted
  exact runsInRange_overflowSplit hvalid.fee.2 ((obeys_iff_splits hmin hmax _).1 hobeys)

/-- Below the sign bit, the accepted splits are those that leave the fee, and the sum that the program takes of
them stays in range. -/
theorem verifySpend_signed_iff_split (hc : suite.curve.PrimeOrder)
    (hcompile : Contract.compile (Key.publicKey key) terms = .ok contract)
    (hsign : signInput key tx index value contract = .ok tx') (hmin : maxValue < value)
    (hmax : value.toNat < 2 ^ 63) (hamounts : ∀ o ∈ tx'.outputs, o.amount.toNat < 2 ^ 63) :
    (Contract.verifySpend suite tx' index value contract = .ok () ↔
      tx'.inputs.length = 1 ∧ ∃ v₁ v₂ : UInt64,
        tx'.outputs = [⟨v₁, contract.lockingScript suite⟩, ⟨v₂, contract.lockingScript suite⟩] ∧
        v₁.toNat + v₂.toNat + terms.fee.toNat = value.toNat) ∧
    (Contract.verifySpend suite tx' index value contract = .ok () → ∀ ctx s,
      Program.RunsInRange suite ctx (overflowSplit terms.fee.toNat) (LittleEndian.encode 8 value.toNat ::
        CompactSize.encodeBytes contract.script :: Output.listBytes tx'.outputs :: s) s) := by
  refine ⟨?_, runsInRange_of_verifySpend hc hcompile hsign hmin hmax⟩
  rw [verifySpend_signed_iff_signedAmount hc hcompile hsign hmin hmax]
  refine and_congr_right fun _ => exists_congr fun v₁ => exists_congr fun v₂ => and_congr_right fun houtputs => ?_
  rw [houtputs] at hamounts
  rw [signedAmount_of_lt (hamounts _ List.mem_cons_self),
    signedAmount_of_lt (hamounts _ (List.mem_cons_of_mem _ List.mem_cons_self))]
  exact_mod_cast Iff.rfl

/-- The terms of two parties with the largest fee. -/
def maxFeeTerms : Terms :=
  { sampleTerms with fee := 2113929217 }

/-- Two outputs of a contract whose limbs carry as much as limbs can. -/
def carryingOutputs (contract : Contract) : List Output :=
  [⟨0x3fffffffffff, contract.lockingScript Suite.standard⟩,
    ⟨0x3fffffffffffffff, contract.lockingScript Suite.standard⟩]

/-- A coin that they split after the largest fee. -/
def carryingCoin : Coin :=
  { sampleCoin with value := 0x3fffffffffff + 0x3fffffffffffffff + 2113929217 }

theorem exists_carryingSpend :
    ∃ (key : Suite.standard.curve.Scalar) (contract : Contract) (tx : Transaction),
      Contract.compile (Key.publicKey key) maxFeeTerms = .ok contract ∧
      signInput key (unsigned carryingCoin.outpoint (carryingOutputs contract)) 0 carryingCoin.value contract =
        .ok tx :=
  exists_signInput_of_publishedSpend (by decide +kernel)

theorem verifySpend_signed_iff_split_sample :
    ∃ (key : Suite.standard.curve.Scalar) (contract : Contract) (tx : Transaction),
      Suite.standard.curve.PrimeOrder ∧ Contract.compile (Key.publicKey key) maxFeeTerms = .ok contract ∧
      signInput key (unsigned carryingCoin.outpoint (carryingOutputs contract)) 0 carryingCoin.value contract =
        .ok tx ∧
      maxValue < carryingCoin.value ∧ carryingCoin.value.toNat < 2 ^ 63 ∧
      (∀ o ∈ tx.outputs, o.amount.toNat < 2 ^ 63) ∧
      Contract.verifySpend Suite.standard tx 0 carryingCoin.value contract = .ok () ∧
      ∀ ctx s, Program.RunsInRange Suite.standard ctx (overflowSplit maxFeeTerms.fee.toNat)
        (LittleEndian.encode 8 carryingCoin.value.toNat :: CompactSize.encodeBytes contract.script ::
          Output.listBytes tx.outputs :: s) s := by
  have hmin : maxValue < carryingCoin.value := by decide
  have hmax : carryingCoin.value.toNat < 2 ^ 63 := by decide
  obtain ⟨key, contract, tx, hcompile, hsign⟩ := exists_carryingSpend
  have houtputs : tx.outputs = carryingOutputs contract := outputs_of_signInput hsign
  have hamounts : ∀ o ∈ tx.outputs, o.amount.toNat < 2 ^ 63 := by
    rw [houtputs]
    simp [carryingOutputs]
  obtain ⟨hiff, hrange⟩ :=
    verifySpend_signed_iff_split Curve.primeOrder_secp256k1 hcompile hsign hmin hmax hamounts
  have haccepted := hiff.2 ⟨length_inputs_of_signInput hsign, _, _, houtputs, by decide⟩
  exact ⟨key, contract, tx, Curve.primeOrder_secp256k1, hcompile, hsign, hmin, hmax, hamounts, haccepted,
    hrange haccepted⟩

/-! ## Amounts with the sign bit -/

/-- An accepted split returns the amount without the fee if and only if no amount of it has the sign bit. -/
theorem sum_amount_eq_iff_of_verifySpend (hc : suite.curve.PrimeOrder)
    (hcompile : Contract.compile (Key.publicKey key) terms = .ok contract)
    (hsign : signInput key tx index value contract = .ok tx') (hmin : maxValue < value)
    (hmax : value.toNat < 2 ^ 63) (haccepted : Contract.verifySpend suite tx' index value contract = .ok ()) :
    ∃ v₁ v₂ : UInt64,
      tx'.outputs = [⟨v₁, contract.lockingScript suite⟩, ⟨v₂, contract.lockingScript suite⟩] ∧
      signedAmount v₁.toNat + signedAmount v₂.toNat + terms.fee.toNat = value.toNat ∧
      (v₁.toNat + v₂.toNat + terms.fee.toNat = value.toNat ↔ v₁.toNat < 2 ^ 63 ∧ v₂.toNat < 2 ^ 63) := by
  obtain ⟨-, v₁, v₂, houtputs, hsum⟩ :=
    (verifySpend_signed_iff_signedAmount hc hcompile hsign hmin hmax).1 haccepted
  refine ⟨v₁, v₂, houtputs, hsum, ?_, ?_⟩
  · intro hconserved
    omega
  · rintro ⟨h₁, h₂⟩
    rw [signedAmount_of_lt h₁, signedAmount_of_lt h₂] at hsum
    exact_mod_cast hsum

/-- The sign bit alone counts for nothing. -/
theorem signedAmount_signBit : signedAmount (2 ^ 63) = 0 := by
  rw [signedAmount_of_ge (Nat.le_refl _) (by decide)]
  decide

/-- An amount of the sign bit alone, before one that returns the coin without the fee. -/
def inflatingOutputs (contract : Contract) : List Output :=
  [⟨0x8000000000000000, contract.lockingScript Suite.standard⟩,
    ⟨0x80000000 - 2000, contract.lockingScript Suite.standard⟩]

/-- A coin of the least amount that is split. -/
def thresholdCoin : Coin :=
  { sampleCoin with value := 0x80000000 }

theorem exists_inflatingSpend :
    ∃ (key : Suite.standard.curve.Scalar) (contract : Contract) (tx : Transaction),
      Contract.compile (Key.publicKey key) sampleTerms = .ok contract ∧
      signInput key (unsigned thresholdCoin.outpoint (inflatingOutputs contract)) 0 thresholdCoin.value contract =
        .ok tx ∧
      Contract.verifySpend Suite.standard tx 0 thresholdCoin.value contract = .ok () := by
  obtain ⟨key, contract, tx, hcompile, hsign⟩ := exists_signInput_of_publishedSpend
    (show (publishedSpend sampleTerms thresholdCoin inflatingOutputs).isSome = true by decide +kernel)
  refine ⟨key, contract, tx, hcompile, hsign, ?_⟩
  rw [verifySpend_signed_iff_signedAmount Curve.primeOrder_secp256k1 hcompile hsign (by decide) (by decide)]
  refine ⟨length_inputs_of_signInput hsign, _, _, outputs_of_signInput hsign, ?_⟩
  change signedAmount (2 ^ 63) + signedAmount (0x80000000 - 2000) + 2000 = 0x80000000
  rw [signedAmount_signBit, signedAmount_of_lt (by decide)]
  decide

theorem sum_amount_eq_iff_of_verifySpend_sample :
    ∃ (key : Suite.standard.curve.Scalar) (contract : Contract) (tx : Transaction),
      Suite.standard.curve.PrimeOrder ∧ Contract.compile (Key.publicKey key) sampleTerms = .ok contract ∧
      signInput key (unsigned thresholdCoin.outpoint (inflatingOutputs contract)) 0 thresholdCoin.value contract =
        .ok tx ∧
      maxValue < thresholdCoin.value ∧ thresholdCoin.value.toNat < 2 ^ 63 ∧
      Contract.verifySpend Suite.standard tx 0 thresholdCoin.value contract = .ok () ∧
      ∃ v₁ v₂ : UInt64, tx.outputs = [⟨v₁, contract.lockingScript Suite.standard⟩,
          ⟨v₂, contract.lockingScript Suite.standard⟩] ∧
        signedAmount v₁.toNat + signedAmount v₂.toNat + sampleTerms.fee.toNat = thresholdCoin.value.toNat ∧
        (v₁.toNat + v₂.toNat + sampleTerms.fee.toNat = thresholdCoin.value.toNat ↔
          v₁.toNat < 2 ^ 63 ∧ v₂.toNat < 2 ^ 63) := by
  have hmin : maxValue < thresholdCoin.value := by decide
  have hmax : thresholdCoin.value.toNat < 2 ^ 63 := by decide
  obtain ⟨key, contract, tx, hcompile, hsign, haccepted⟩ := exists_inflatingSpend
  exact ⟨key, contract, tx, Curve.primeOrder_secp256k1, hcompile, hsign, hmin, hmax, haccepted,
    sum_amount_eq_iff_of_verifySpend Curve.primeOrder_secp256k1 hcompile hsign hmin hmax haccepted⟩

/-- Two outputs are accepted that return more than there was. -/
theorem not_conserved_of_signBit :
    ∃ (key : Suite.standard.curve.Scalar) (contract : Contract) (tx : Transaction),
      Contract.compile (Key.publicKey key) sampleTerms = .ok contract ∧
      signInput key (unsigned thresholdCoin.outpoint (inflatingOutputs contract)) 0 thresholdCoin.value contract =
        .ok tx ∧
      maxValue < thresholdCoin.value ∧ thresholdCoin.value.toNat < 2 ^ 63 ∧ tx.inputs.length = 1 ∧
      Contract.verifySpend Suite.standard tx 0 thresholdCoin.value contract = .ok () ∧
      ¬∃ o₁ o₂ : Output, tx.outputs = [o₁, o₂] ∧
        o₁.amount.toNat + o₂.amount.toNat + sampleTerms.fee.toNat = thresholdCoin.value.toNat := by
  obtain ⟨key, contract, tx, hcompile, hsign, haccepted⟩ := exists_inflatingSpend
  refine ⟨key, contract, tx, hcompile, hsign, by decide, by decide, length_inputs_of_signInput hsign, haccepted, ?_⟩
  rintro ⟨o₁, o₂, hpair, hsum⟩
  have houtputs : tx.outputs = inflatingOutputs contract := outputs_of_signInput hsign
  rw [houtputs, inflatingOutputs] at hpair
  cases hpair
  change 0x8000000000000000 + (0x80000000 - 2000) + 2000 = 0x80000000 at hsum
  omega

end ShareCovenant.Spend
