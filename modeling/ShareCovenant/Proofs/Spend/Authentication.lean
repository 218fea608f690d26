import Mathlib
import ShareCovenant.Proofs.Spend.Completeness

/-!
# Authenticated fragments

What an accepted input has pushed, whoever made its unlocking script. One signature is valid for the input and
for the joined fragments, so both messages have one challenge, and the fragments spell the preimage of the
input unless the messages collide.
-/

namespace ShareCovenant

open Covenant

variable {suite : Suite} {pubkey : FixedBytes 33} {terms : Terms} {contract : Contract} {tx : Transaction}
  {index : Nat} {value : UInt64}

/-- The joined fragments and the preimage have one challenge under the nonce point of the signature. -/
theorem Covenant.Elements.Signed.exists_challenge_eq (hc : suite.curve.PrimeOrder) {ctx : SpendContext}
    {e : Elements} (h : e.Signed suite ctx pubkey) :
    ∃ (sig : FixedBytes 64) (preimage : Preimage), e.signature = sig.val ++ [sighashAllForkId.toUInt8] ∧
      Preimage.ofIndex? suite ctx.tx ctx.index ctx.scriptCode ctx.value sighashAllForkId = some preimage ∧
      Signature.challenge suite (Signature.nonceBytes sig) pubkey (suite.sha256d e.fragments.flatten) =
        Signature.challenge suite (Signature.nonceBytes sig) pubkey (preimage.sighash suite) := by
  obtain ⟨sig, preimage, hsig, hpreimage, hverify, hdata⟩ := h.exists_signature
  exact ⟨sig, preimage, hsig, hpreimage, Signature.challenge_eq_of_verify hc hdata hverify⟩

namespace Spend

/-- Messages with one challenge are the same, if neither hash makes them collide. -/
theorem eq_of_challenge_eq {r : FixedBytes 32} {m m' : Bytes}
    (hchallenge : Set.InjOn (Signature.challenge suite r pubkey) {suite.sha256d m, suite.sha256d m'})
    (hhash : Set.InjOn suite.sha256d {m, m'})
    (h : Signature.challenge suite r pubkey (suite.sha256d m) =
      Signature.challenge suite r pubkey (suite.sha256d m')) : m = m' := by
  refine hhash (Set.mem_insert _ _) (Set.mem_insert_of_mem _ rfl) ?_
  exact hchallenge (Set.mem_insert _ _) (Set.mem_insert_of_mem _ rfl) h

theorem length_pushed (e : Elements) : e.pushed.length = 12 := rfl

/-- An accepted input whose last push is the contract's own script has pushed elements that are admitted. -/
theorem exists_admitted (hcompile : Contract.compile pubkey terms = .ok contract) {addresses : List Address}
    (hvalidate : terms.validate = .ok addresses) {input : Input} (hinput : tx.inputs[index]? = some input)
    {pushes : List Bytes} (hpushes : Script.pushes input.unlockingScript = .ok pushes)
    (hlast : pushes.getLast? = some contract.script)
    (haccepted : Contract.verifySpend suite tx index value contract = .ok ()) :
    ∃ e : Elements, pushes = e.pushed ++ [contract.script] ∧
      e.Admitted suite ⟨tx, index, value, contract.script⟩ pubkey terms addresses := by
  obtain ⟨pushed, rfl⟩ := List.getLast?_eq_some_iff.1 hlast
  obtain ⟨e, rfl, -, hadmitted⟩ :=
    (Contract.verifySpend_iff_admitted hcompile hvalidate hinput hpushes).1 haccepted
  exact ⟨e, rfl, hadmitted⟩

/-- The pushes of an accepted input are bound to each other, and its fragments are authenticated by one
signature for two messages. -/
theorem authenticated_of_verifySpend (hc : suite.curve.PrimeOrder)
    (hcompile : Contract.compile pubkey terms = .ok contract) {input : Input}
    (hinput : tx.inputs[index]? = some input) {pushes : List Bytes}
    (hpushes : Script.pushes input.unlockingScript = .ok pushes)
    (hlast : pushes.getLast? = some contract.script)
    (haccepted : Contract.verifySpend suite tx index value contract = .ok ()) :
    ∃ (e : Elements) (sig : FixedBytes 64) (preimage : Preimage),
      pushes = e.pushed ++ [contract.script] ∧ pushes.length = 13 ∧
      (suite.sha256d e.prevouts).val = e.hashPrevouts ∧ e.prevouts = e.outpoint ∧
      (suite.sha256d e.outputs).val = e.hashOutputs ∧ e.value.length = 8 ∧ e.signature = sig.val ++ [0x41] ∧
      Preimage.ofIndex? suite tx index contract.script value sighashAllForkId = some preimage ∧
      Signature.challenge suite (Signature.nonceBytes sig) pubkey (suite.sha256d e.fragments.flatten) =
        Signature.challenge suite (Signature.nonceBytes sig) pubkey (preimage.sighash suite) ∧
      (Set.InjOn (Signature.challenge suite (Signature.nonceBytes sig) pubkey)
          {suite.sha256d e.fragments.flatten, preimage.sighash suite} →
        Set.InjOn suite.sha256d {e.fragments.flatten, preimage.bytes} →
        e.fragments.flatten = preimage.bytes) := by
  obtain ⟨addresses, hvalidate⟩ := Contract.exists_validate hcompile
  obtain ⟨e, rfl, hadmitted⟩ := exists_admitted hcompile hvalidate hinput hpushes hlast haccepted
  obtain ⟨sig, preimage, hsig, hpreimage, hchallenge⟩ := hadmitted.signed.exists_challenge_eq hc
  refine ⟨e, sig, preimage, rfl, by rw [List.length_append, length_pushed]; rfl, hadmitted.bound.hashPrevouts,
    hadmitted.bound.outpoint, hadmitted.bound.hashOutputs, hadmitted.length_value, hsig, hpreimage, hchallenge, ?_⟩
  intro hinjChallenge hinjHash
  exact eq_of_challenge_eq hinjChallenge hinjHash hchallenge

theorem authenticated_of_verifySpend_sample :
    ∃ (key : Suite.standard.curve.Scalar) (contract : Contract) (tx : Transaction) (input : Input)
      (pushes : List Bytes) (e : Elements) (sig : FixedBytes 64) (preimage : Preimage),
      Suite.standard.curve.PrimeOrder ∧ Contract.compile (Key.publicKey key) sampleTerms = .ok contract ∧
      tx.inputs[0]? = some input ∧ Script.pushes input.unlockingScript = .ok pushes ∧
      pushes.getLast? = some contract.script ∧
      Contract.verifySpend Suite.standard tx 0 sampleCoin.value contract = .ok () ∧
      pushes = e.pushed ++ [contract.script] ∧ e.signature = sig.val ++ [0x41] ∧
      Signature.challenge Suite.standard (Signature.nonceBytes sig) (Key.publicKey key)
          (Suite.standard.sha256d e.fragments.flatten) =
        Signature.challenge Suite.standard (Signature.nonceBytes sig) (Key.publicKey key)
          (preimage.sighash Suite.standard) := by
  have hc : Suite.standard.curve.PrimeOrder := Curve.primeOrder_secp256k1
  obtain ⟨key, tx, -, hbuild⟩ := exists_sampleSpend
  obtain ⟨contract, outputs, hcompile, houtputs, hsign⟩ := exists_of_build hbuild
  obtain ⟨input, sig, hinput, hpushes⟩ := pushes_of_signInput hsign
  have haccepted := verifySpend_of_outputs hc hcompile (by decide) houtputs hsign
  obtain ⟨e, sig', preimage, hpushed, -, -, -, -, -, hsig, -, hchallenge, -⟩ :=
    authenticated_of_verifySpend hc hcompile hinput hpushes List.getLast?_concat haccepted
  exact ⟨key, contract, tx, input, _, e, sig', preimage, hc, hcompile, hinput, hpushes, List.getLast?_concat,
    haccepted, hpushed, hsig, hchallenge⟩

end Spend

end ShareCovenant
