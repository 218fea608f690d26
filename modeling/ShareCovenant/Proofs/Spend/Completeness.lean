import Mathlib
import ShareCovenant.Proofs.Contract.Payout
import ShareCovenant.Proofs.Curve.Secp256k1
import ShareCovenant.Proofs.Spend.Amounts

/-!
# Built spends

A spend that is built for a coin is one that the program accepts, whatever becomes of the amount of the coin.
-/

namespace ShareCovenant.Spend

open Covenant

variable {suite : Suite} {terms : Terms} {addresses : List Address} {contract : Contract} {value : UInt64}

/-- The outputs that are computed obey the terms, and are one element. -/
theorem obeys_of_outputs {pubkey : FixedBytes 33} (hcompile : Contract.compile pubkey terms = .ok contract)
    (hvalidate : terms.validate = .ok addresses) (hmax : value.toNat < 2 ^ 63) {outputs : List Output}
    (h : Payout.outputs suite value terms contract = .ok outputs) :
    (Output.listBytes outputs).length ≤ maxElementSize ∧
      Obeys suite terms addresses contract value outputs := by
  have hvalid := Terms.valid_of_validate hvalidate
  rcases Payout.outputs_cases hvalidate h with ⟨hmin, rfl⟩ | ⟨hle, hnone, rfl⟩ | ⟨hle, hsome, hpays⟩
  · have hsum := Payout.sum_halves hmin hvalid.fee.2
    have hscript : (contract.lockingScript suite).length = 23 := length_scriptHashLock _
    constructor
    · have hbytes : (Output.listBytes (Payout.halves (value - terms.fee) (contract.lockingScript suite))).length ≤
          34 * 2 := Output.length_listBytes_le (by simp [Payout.halves, hscript])
      exact hbytes.trans (by decide)
    · refine (obeys_iff_of_exceeds hcompile hmin hmax ?_).2 ⟨_, _, rfl, rfl, rfl, hsum⟩
      simp only [Payout.halves, List.forall_mem_cons]
      exact ⟨by omega, by omega, fun _ ho => absurd ho List.not_mem_nil⟩
  · exact ⟨by decide, obeys_noPayout hvalid hle hnone⟩
  · exact ⟨hpays.length_listBytes hvalid.length_zip_le, (obeys_iff_paysAll hvalid hle hsome _).2 hpays⟩

theorem exists_of_build {key : suite.curve.Scalar} {coin : Coin} {tx : Transaction}
    (h : build key coin terms = .ok tx) :
    ∃ contract outputs, Contract.compile (Key.publicKey key) terms = .ok contract ∧
      Payout.outputs suite coin.value terms contract = .ok outputs ∧
      signInput key (unsigned coin.outpoint outputs) 0 coin.value contract = .ok tx := by
  unfold build at h
  rw [bind_eq_ok_iff] at h
  obtain ⟨contract, hcompile, h⟩ := h
  rw [bind_eq_ok_iff] at h
  obtain ⟨outputs, houtputs, h⟩ := h
  exact ⟨contract, outputs, hcompile, houtputs, h⟩

/-- A coin is unlocked by signing the outputs that are computed for it. -/
theorem verifySpend_of_outputs (hc : suite.curve.PrimeOrder) {key : suite.curve.Scalar}
    (hcompile : Contract.compile (Key.publicKey key) terms = .ok contract) (hmax : value.toNat < 2 ^ 63)
    {outputs : List Output} (houtputs : Payout.outputs suite value terms contract = .ok outputs)
    {outpoint : OutPoint} {tx : Transaction}
    (hsign : signInput key (unsigned outpoint outputs) 0 value contract = .ok tx) :
    Contract.verifySpend suite tx 0 value contract = .ok () := by
  obtain ⟨addresses, hvalidate⟩ := Contract.exists_validate hcompile
  rw [verifySpend_signed_iff hc hcompile hvalidate hsign, outputs_of_signInput hsign]
  exact ⟨length_inputs_of_signInput hsign, obeys_of_outputs hcompile hvalidate hmax houtputs⟩

/-- A spend that is built for a coin is accepted. -/
theorem verifySpend_of_build (hc : suite.curve.PrimeOrder) {key : suite.curve.Scalar} {coin : Coin}
    (hvalue : coin.value.toNat < 2 ^ 63) {tx : Transaction} (h : build key coin terms = .ok tx) :
    ∃ contract, Contract.compile (Key.publicKey key) terms = .ok contract ∧
      Contract.verifySpend suite tx 0 coin.value contract = .ok () := by
  obtain ⟨contract, outputs, hcompile, houtputs, hsign⟩ := exists_of_build h
  exact ⟨contract, hcompile, verifySpend_of_outputs hc hcompile hvalue houtputs hsign⟩

/-! ## A coin of the published key -/

/-- Terms of two parties. -/
def sampleTerms : Terms where
  fee := 2000
  parties := [⟨"ecash:qq28cqs6dx23qh4qucnk9v3l2jt4yr242cxqqnw9kc", 900⟩,
    ⟨"ecash:qq830d643lw865u0x7mpc4yzsrvt9peccggju7td2v", 100⟩]

/-- A coin that is divided into six thousand after the fee. -/
def sampleCoin : Coin where
  outpoint := { txid := ⟨1 :: List.replicate 31 0, rfl⟩, index := 0 }
  value := 8000

/-- The spend of a coin of the published key with outputs that may be the contract's own. -/
def publishedSpend (terms : Terms) (coin : Coin) (outputs : Contract → List Output) : Option Transaction :=
  (Key.published Suite.standard).toOption.bind fun key =>
    (Contract.compile (Key.publicKey key) terms).toOption.bind fun contract =>
      (withOutputs key coin contract (outputs contract)).toOption

theorem exists_signInput_of_publishedSpend {coin : Coin} {outputs : Contract → List Output}
    (h : (publishedSpend terms coin outputs).isSome = true) :
    ∃ (key : Suite.standard.curve.Scalar) (contract : Contract) (tx : Transaction),
      Contract.compile (Key.publicKey key) terms = .ok contract ∧
      signInput key (unsigned coin.outpoint (outputs contract)) 0 coin.value contract = .ok tx := by
  simp only [publishedSpend, Option.isSome_iff_exists, Option.bind_eq_some_iff, toOption_eq_some_iff] at h
  obtain ⟨tx, key, -, contract, hcompile, hsign⟩ := h
  exact ⟨key, contract, tx, hcompile, hsign⟩

theorem exists_sampleSpend :
    ∃ (key : Suite.standard.curve.Scalar) (tx : Transaction), Key.published Suite.standard = .ok key ∧
      build key sampleCoin sampleTerms = .ok tx := by
  have h : ((Key.published Suite.standard).toOption.bind fun key =>
      (build key sampleCoin sampleTerms).toOption).isSome = true := by decide +kernel
  simp only [Option.isSome_iff_exists, Option.bind_eq_some_iff, toOption_eq_some_iff] at h
  obtain ⟨tx, key, hkey, hbuild⟩ := h
  exact ⟨key, tx, hkey, hbuild⟩

theorem verifySpend_of_build_sample :
    ∃ (key : Suite.standard.curve.Scalar) (tx : Transaction) (contract : Contract),
      Suite.standard.curve.PrimeOrder ∧ sampleCoin.value.toNat < 2 ^ 63 ∧
      build key sampleCoin sampleTerms = .ok tx ∧
      Contract.compile (Key.publicKey key) sampleTerms = .ok contract ∧
      Contract.verifySpend Suite.standard tx 0 sampleCoin.value contract = .ok () := by
  obtain ⟨key, tx, -, hbuild⟩ := exists_sampleSpend
  have hvalue : sampleCoin.value.toNat < 2 ^ 63 := by decide
  obtain ⟨contract, hcompile, haccepted⟩ := verifySpend_of_build Curve.primeOrder_secp256k1 hvalue hbuild
  exact ⟨key, tx, contract, Curve.primeOrder_secp256k1, hvalue, hbuild, hcompile, haccepted⟩

end ShareCovenant.Spend
