import Mathlib
import ShareCovenant.Contract.Spend
import ShareCovenant.Proofs.Covenant.Admission
import ShareCovenant.Proofs.Signature

/-!
# Signed inputs

An input that is signed with the key of a contract pushes what the program reads of it, so the signature
and all comparisons but two hold: whether there is one input, and whether the outputs obey the terms.
-/

namespace ShareCovenant

open Covenant

namespace Covenant.Elements

/-- The elements that are pushed for an input with a preimage and its signature. -/
def ofSigned (tx : Transaction) (sig : FixedBytes 64) (p : Preimage) : Elements where
  prevouts := OutPoint.listBytes tx.outpoints
  outputs := Output.listBytes tx.outputs
  signature := sig.val ++ [sighashAllForkId.toUInt8]
  version := LittleEndian.encode 4 p.version.toUInt32.toNat
  hashPrevouts := p.hashPrevouts
  hashSequence := p.hashSequence
  outpoint := p.outpoint.bytes
  scriptCode := CompactSize.encodeBytes p.scriptCode
  value := LittleEndian.encode 8 p.value.toNat
  sequence := LittleEndian.encode 4 p.sequence.toNat
  hashOutputs := p.hashOutputs
  lockTimeAndType := LittleEndian.encode 4 p.lockTime.toNat ++ LittleEndian.encode 4 p.sighashType.toNat

theorem pushed_injective : Function.Injective pushed := by
  intro e e' h
  cases e
  cases e'
  simp only [pushed, fragments, List.cons_append, List.nil_append, List.cons.injEq, and_true] at h
  simp only [mk.injEq]
  exact h

end Covenant.Elements

namespace Spend

variable {suite : Suite} {key : suite.curve.Scalar} {tx tx' : Transaction} {index : Nat} {value : UInt64}
  {contract : Contract}

theorem elements_eq (tx : Transaction) (sig : FixedBytes 64) (p : Preimage) (contract : Contract) :
    elements tx sig p contract = (Elements.ofSigned tx sig p).pushed ++ [contract.script] := rfl

/-- A signed transaction differs from the one that was to be signed in the pushes of one input. -/
theorem exists_pushAll_of_signInput (h : signInput key tx index value contract = .ok tx') :
    ∃ input sig script, tx.inputs[index]? = some input ∧
      Signature.sign key
        ((Preimage.ofInput suite tx input contract.script value sighashAllForkId).sighash suite) = .ok sig ∧
      Script.pushAll (elements tx sig
        (Preimage.ofInput suite tx input contract.script value sighashAllForkId) contract) = .ok script ∧
      tx' = tx.setUnlockingScript index script := by
  unfold signInput unlockingScript Preimage.ofIndex? at h
  cases hinput : tx.inputs[index]? with
  | none =>
      rw [hinput] at h
      cases h
  | some input =>
      rw [hinput, map_eq_ok_iff] at h
      obtain ⟨script, hscript, rfl⟩ := h
      obtain ⟨sig, hsig, hpush⟩ := bind_eq_ok_iff.1 hscript
      exact ⟨input, sig, script, rfl, mapError_eq_ok_iff.1 hsig, mapError_eq_ok_iff.1 hpush, rfl⟩

theorem exists_of_signInput (h : signInput key tx index value contract = .ok tx') :
    ∃ input sig script, tx.inputs[index]? = some input ∧
      Signature.sign key
        ((Preimage.ofInput suite tx input contract.script value sighashAllForkId).sighash suite) = .ok sig ∧
      Script.pushes script = .ok (elements tx sig
        (Preimage.ofInput suite tx input contract.script value sighashAllForkId) contract) ∧
      tx' = tx.setUnlockingScript index script := by
  obtain ⟨input, sig, script, hinput, hsig, hpush, htx⟩ := exists_pushAll_of_signInput h
  exact ⟨input, sig, script, hinput, hsig, Script.pushes_of_pushAll hpush, htx⟩

theorem outputs_of_signInput (h : signInput key tx index value contract = .ok tx') : tx'.outputs = tx.outputs := by
  obtain ⟨-, -, script, -, -, -, rfl⟩ := exists_pushAll_of_signInput h
  rfl

theorem length_inputs_of_signInput (h : signInput key tx index value contract = .ok tx') :
    tx'.inputs.length = tx.inputs.length := by
  obtain ⟨-, -, script, -, -, -, rfl⟩ := exists_pushAll_of_signInput h
  exact Transaction.length_inputs_setUnlockingScript tx index script

/-- A signed input pushes the elements of its own preimage, of which the unlocking script is no part. -/
theorem pushes_of_signInput (h : signInput key tx index value contract = .ok tx') :
    ∃ input sig, tx'.inputs[index]? = some input ∧
      Script.pushes input.unlockingScript = .ok ((Elements.ofSigned tx' sig
        (Preimage.ofInput suite tx' input contract.script value sighashAllForkId)).pushed ++
          [contract.script]) := by
  obtain ⟨input, sig, script, hinput, -, hpushes, rfl⟩ := exists_of_signInput h
  refine ⟨_, sig, Transaction.getElem?_setUnlockingScript hinput script, ?_⟩
  rw [Preimage.ofInput_setUnlockingScript, hpushes, elements_eq]
  simp only [Elements.ofSigned, Transaction.outpoints_setUnlockingScript]
  rfl

/-- The outpoints are those of one input if and only if there is no other input. -/
theorem outpoints_eq_singleton_iff {input : Input} (h : tx.inputs[index]? = some input) :
    tx.outpoints = [input.outpoint] ↔ tx.inputs.length = 1 := by
  constructor
  · intro heq
    have := congrArg List.length heq
    rwa [Transaction.outpoints, List.length_map] at this
  · intro hlen
    obtain ⟨input', hinputs⟩ := List.length_eq_one_iff.1 hlen
    rw [hinputs, List.getElem?_singleton] at h
    split_ifs at h
    cases h
    rw [Transaction.outpoints, hinputs, List.map_singleton]

/-- The outputs are what the program asks of an amount. -/
def Obeys (suite : Suite) (terms : Terms) (addresses : List Address) (contract : Contract) (value : UInt64)
    (outputs : List Output) : Prop :=
  if exceeds (LittleEndian.encode 8 value.toNat) then
    Splits suite terms.fee.toNat (CompactSize.encodeBytes contract.script) (LittleEndian.encode 8 value.toNat)
      (Output.listBytes outputs)
  else Distributes terms.fee.toNat terms.parties addresses (LittleEndian.encode 8 value.toNat)
      (Output.listBytes outputs)

/-- What is pushed for a signed input fits, but for the outpoints and outputs. -/
theorem pushed_fits_iff {sig : FixedBytes 64} {p : Preimage}
    (hcode : (CompactSize.encodeBytes p.scriptCode).length ≤ maxElementSize)
    (hprevouts : (OutPoint.listBytes tx.outpoints).length = 36) :
    (∀ item ∈ (Elements.ofSigned tx sig p).pushed, item.length ≤ maxElementSize) ↔
      (Output.listBytes tx.outputs).length ≤ maxElementSize := by
  unfold maxElementSize at *
  simp [Elements.pushed, Elements.fragments, Elements.ofSigned, hprevouts, sig.property, p.hashPrevouts.property,
    p.hashSequence.property, p.hashOutputs.property, OutPoint.length_bytes, hcode]

/-- An input with an honest signature and fragments that spell its preimage, in whatever pieces, is unlocked if and
only if the elements fit and the program accepts what it reads in them. -/
theorem verifySpend_spelled_iff (hc : suite.curve.PrimeOrder) {terms : Terms}
    (hcompile : Contract.compile (Key.publicKey key) terms = .ok contract) {addresses : List Address}
    (hvalidate : terms.validate = .ok addresses) {input : Input} (hinput : tx.inputs[index]? = some input)
    {p : Preimage} (hp : p = Preimage.ofInput suite tx input contract.script value sighashAllForkId)
    {sig : FixedBytes 64} (hsig : Signature.sign key (p.sighash suite) = .ok sig) {e : Elements}
    (hsignature : e.signature = sig.val ++ [sighashAllForkId.toUInt8]) (hspell : e.fragments.flatten = p.bytes)
    {script : Bytes} (hpushes : Script.pushes script = .ok (e.pushed ++ [contract.script])) :
    Contract.verifySpend suite (tx.setUnlockingScript index script) index value contract = .ok () ↔
      (∀ item ∈ e.pushed, item.length ≤ maxElementSize) ∧ e.Bound suite ∧ e.value.length = 8 ∧
        if exceeds e.value then Splits suite terms.fee.toNat e.scriptCode e.value e.outputs
        else Distributes terms.fee.toNat terms.parties addresses e.value e.outputs := by
  have hinput' := Transaction.getElem?_setUnlockingScript hinput script
  have hpreimage : Preimage.ofIndex? suite (tx.setUnlockingScript index script) index contract.script value
      sighashAllForkId = some p := by
    rw [Preimage.ofIndex?, hinput', Option.map_some, Preimage.ofInput_setUnlockingScript, hp]
  have hverify := Signature.verify_of_sign hc hsig
  have hsigned : e.Signed suite ⟨tx.setUnlockingScript index script, index, value, contract.script⟩
      (Key.publicKey key) := by
    refine ⟨?_, sig, p, hsignature, hpreimage, hverify, ?_⟩
    · rw [hspell]
      exact Contract.length_preimage_le hcompile (hp ▸ rfl)
    · rw [hspell]
      exact hverify
  rw [Contract.verifySpend_iff_admitted hcompile hvalidate hinput' hpushes]
  constructor
  · rintro ⟨e', hpushed, hsizes, hadmitted⟩
    obtain rfl := Elements.pushed_injective hpushed
    exact ⟨hsizes, hadmitted.bound, hadmitted.length_value, hadmitted.outputs⟩
  · rintro ⟨hsizes, hbound, hvalue, houtputs⟩
    exact ⟨e, rfl, hsizes, hbound, hvalue, houtputs, hsigned⟩

/-- A signed input is unlocked if and only if it is the only one and the outputs obey the terms. -/
theorem verifySpend_signed_iff (hc : suite.curve.PrimeOrder) {terms : Terms}
    (hcompile : Contract.compile (Key.publicKey key) terms = .ok contract) {addresses : List Address}
    (hvalidate : terms.validate = .ok addresses) (hsign : signInput key tx index value contract = .ok tx') :
    Contract.verifySpend suite tx' index value contract = .ok () ↔
      tx'.inputs.length = 1 ∧ (Output.listBytes tx'.outputs).length ≤ maxElementSize ∧
        Obeys suite terms addresses contract value tx'.outputs := by
  obtain ⟨input, sig, script, hinput, hsig, hpushes, rfl⟩ := exists_of_signInput hsign
  rw [elements_eq] at hpushes
  have hone : OutPoint.listBytes tx.outpoints = input.outpoint.bytes ↔ tx.inputs.length = 1 := by
    rw [OutPoint.listBytes_eq_bytes_iff, outpoints_eq_singleton_iff hinput]
  rw [verifySpend_spelled_iff hc hcompile hvalidate hinput rfl hsig rfl rfl hpushes,
    Transaction.length_inputs_setUnlockingScript]
  constructor
  · rintro ⟨hsizes, hbound, -, hobeys⟩
    refine ⟨hone.1 hbound.outpoint, ?_, hobeys⟩
    exact hsizes (Output.listBytes tx.outputs) (by simp [Elements.pushed, Elements.ofSigned])
  · rintro ⟨hlen, houtputs, hobeys⟩
    have hprevouts := hone.2 hlen
    refine ⟨(pushed_fits_iff ?_ ?_).2 houtputs, ⟨rfl, hprevouts, rfl⟩, LittleEndian.length_encode _ _, hobeys⟩
    · exact Nat.le_of_add_right_le (Contract.length_scriptCode_add_le hcompile)
    · rw [hprevouts, OutPoint.length_bytes]

end Spend

end ShareCovenant
