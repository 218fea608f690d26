import Mathlib
import ShareCovenant.Proofs.Spend.Completeness

/-!
# Sizes of spends

The outputs of a spend stand in it twice: as its outputs, and as an element that the unlocking script pushes.
Every other part has a size that the contract alone decides, so that the size of a built spend is that of its
contract and twice the size of the outputs, with one byte more for a push that is longer than its code can say.
-/

namespace ShareCovenant

open Covenant

/-! ## Transactions -/

/-- The lengths of lists and scripts have a size of their own, the other fields of a spend with one input do not
vary. -/
theorem Transaction.size_setUnlockingScript_unsigned (outpoint : OutPoint) {outputs : List Output}
    (houtputs : outputs.length < 0xfd) {script : Bytes} (hlong : 0xfd ≤ script.length)
    (hshort : script.length < 0x10000) :
    ((Spend.unsigned outpoint outputs).setUnlockingScript 0 script).size =
      53 + script.length + (Output.listBytes outputs).length := by
  have hinput : (Input.bytes { outpoint := outpoint, unlockingScript := script }).length = 43 + script.length := by
    rw [Input.bytes, CompactSize.encodeBytes, CompactSize.encode_of_medium hlong hshort]
    simp only [List.length_append, List.length_cons, OutPoint.length_bytes, LittleEndian.length_encode]
    omega
  change (LittleEndian.encode 4 _ ++ (CompactSize.encode 1 ++ (Input.bytes _ ++ [])) ++
    (CompactSize.encode outputs.length ++ Output.listBytes outputs) ++ LittleEndian.encode 4 _).length = _
  rw [CompactSize.encode_of_short houtputs, CompactSize.encode_of_short (by decide)]
  simp only [List.length_append, List.length_cons, List.length_nil, LittleEndian.length_encode, hinput]
  omega

/-! ## Outputs -/

/-- The outputs of a payout are few and small. The smallest is the one that pays nobody. -/
theorem Payout.length_listBytes_outputs {suite : Suite} {terms : Terms} {addresses : List Address} {value : UInt64}
    (hvalidate : terms.validate = .ok addresses) {contract : Contract} {outs : List Output}
    (h : outputs suite value terms contract = .ok outs) :
    outs.length ≤ 3 ∧ 10 ≤ (Output.listBytes outs).length ∧ (Output.listBytes outs).length < 0x100 := by
  have hvalid := Terms.valid_of_validate hvalidate
  rcases outputs_cases hvalidate h with ⟨-, rfl⟩ | ⟨-, -, rfl⟩ | ⟨-, hsome, hpays⟩
  · have hscript : (contract.lockingScript suite).length = 23 := length_scriptHashLock _
    have hlen : (Output.listBytes (halves (value - terms.fee) (contract.lockingScript suite))).length = 64 := by
      rw [halves, Output.listBytes_cons, Output.listBytes_cons, List.length_append, List.length_append,
        Output.length_bytes (by rw [hscript]; decide), Output.length_bytes (by rw [hscript]; decide), hscript]
      rfl
    rw [hlen]
    exact ⟨Nat.le_succ 2, by decide, by decide⟩
  · decide
  · have hcount : outs.length ≤ 3 := hpays.length_le.trans hvalid.length_zip_le
    have hmost := Output.length_listBytes_le hpays.length_lockingScript
    refine ⟨hcount, ?_, by omega⟩
    cases outs with
    | nil => exact absurd rfl (ne_nil_of_paysAll hvalid hsome hpays)
    | cons o os =>
        obtain ⟨payee, _, hpaid, -, -⟩ := List.forall₂_cons_right_iff.1 hpays
        have hscript := Address.length_lockingScript payee.2
        rw [← hpaid.lockingScript] at hscript
        rw [Output.listBytes_cons, List.length_append, Output.length_bytes (by omega)]
        omega

/-- Of an amount of the fee alone, nobody is paid. -/
theorem Payout.outputs_fee {suite : Suite} {terms : Terms} {addresses : List Address}
    (hvalidate : terms.validate = .ok addresses) {contract : Contract} {outs : List Output}
    (h : outputs suite terms.fee terms contract = .ok outs) : outs = [noPayoutOutput] := by
  have hfee := (Terms.valid_of_validate hvalidate).fee.2
  rcases outputs_cases hvalidate h with ⟨hsplit, -⟩ | ⟨-, -, hnone⟩ | ⟨-, ⟨p, -, hdue⟩, -⟩
  · have hle := fee_add_le hsplit hfee
    omega
  · exact hnone
  · rw [Terms.unit, Nat.sub_self, Nat.zero_div, Nat.zero_mul] at hdue
    omega

/-! ## Pushes -/

theorem Instruction.size_push_of_short {data : Bytes} (h : data.length < 0x100) :
    (push data).size = 1 + data.length + if 76 ≤ data.length then 1 else 0 := by
  rw [size]
  split_ifs <;> omega

theorem Instruction.size_push_le (data : Bytes) : (push data).size ≤ 5 + data.length := by
  rw [size]
  split_ifs <;> omega

/-- The part of the size of a spend that the contract decides. -/
def Contract.spendOverhead (contract : Contract) : Nat :=
  326 + contract.script.length + (Instruction.push contract.script).size

namespace Spend

variable {suite : Suite} {terms : Terms} {contract : Contract} {key : suite.curve.Scalar}

/-- What is pushed beside the outputs and the script has sizes of its own. -/
theorem length_unlockingScript {pubkey : FixedBytes 33} (hcompile : Contract.compile pubkey terms = .ok contract)
    {tx : Transaction} (hone : tx.inputs.length = 1) {sig : FixedBytes 64} {p : Preimage}
    (hcode : p.scriptCode = contract.script) {script : Bytes}
    (h : Script.pushAll (elements tx sig p contract) = .ok script) :
    script.length = 273 + contract.script.length + (Instruction.push contract.script).size +
      (Instruction.push (Output.listBytes tx.outputs)).size := by
  have hprevouts : (OutPoint.listBytes tx.outpoints).length = 36 := by
    rw [OutPoint.length_listBytes, Transaction.outpoints, List.length_map, hone]
  have hscriptCode : (CompactSize.encodeBytes p.scriptCode).length = 3 + contract.script.length := by
    rw [hcode, Contract.length_scriptCode hcompile]
  have hmedium : (Instruction.push (CompactSize.encodeBytes p.scriptCode)).size = 6 + contract.script.length := by
    obtain ⟨-, -, -, hlong, hshort⟩ := Contract.exists_of_compile hcompile
    unfold Contract.maxShortScript at hlong
    unfold maxElementSize at hshort
    rw [Instruction.size, hscriptCode, if_neg (by omega), if_neg (by omega), if_pos (by omega)]
    omega
  rw [Script.length_pushAll h]
  simp only [elements, Preimage.fragments, List.cons_append, List.nil_append, List.map_cons, List.map_nil,
    List.sum_cons, List.sum_nil, hmedium]
  simp (disch := simp [hprevouts, OutPoint.length_bytes, sig.property, p.hashPrevouts.property,
    p.hashSequence.property, p.hashOutputs.property]) only [Instruction.size_push]
  simp only [hprevouts, OutPoint.length_bytes, List.length_append, List.length_cons, List.length_nil, sig.property,
    p.hashPrevouts.property, p.hashSequence.property, p.hashOutputs.property, LittleEndian.length_encode]
  omega

theorem size_of_signInput (hcompile : Contract.compile (Key.publicKey key) terms = .ok contract)
    {outpoint : OutPoint} {outputs : List Output} (hcount : outputs.length < 0xfd)
    (hshort : (Output.listBytes outputs).length < 0x100) {value : UInt64} {tx : Transaction}
    (h : signInput key (unsigned outpoint outputs) 0 value contract = .ok tx) :
    tx.size = contract.spendOverhead + 1 + 2 * (Output.listBytes outputs).length +
      if 76 ≤ (Output.listBytes outputs).length then 1 else 0 := by
  obtain ⟨input, sig, script, -, -, hpush, rfl⟩ := exists_pushAll_of_signInput h
  have hlen := length_unlockingScript hcompile rfl rfl hpush
  obtain ⟨-, -, -, hlong, helement⟩ := Contract.exists_of_compile hcompile
  have hscript := Instruction.size_push_le contract.script
  change script.length = _ + (Instruction.push (Output.listBytes outputs)).size at hlen
  rw [Instruction.size_push_of_short hshort] at hlen
  unfold Contract.maxShortScript at hlong
  unfold maxElementSize at helement
  rw [Transaction.size_setUnlockingScript_unsigned outpoint hcount (by omega) (by split_ifs at hlen <;> omega), hlen,
    Contract.spendOverhead]
  omega

theorem size_of_build {coin : Coin} {tx : Transaction} (h : build key coin terms = .ok tx) :
    ∃ contract outputs, Contract.compile (Key.publicKey key) terms = .ok contract ∧
      Payout.outputs suite coin.value terms contract = .ok outputs ∧
      10 ≤ (Output.listBytes outputs).length ∧
      tx.size = contract.spendOverhead + 1 + 2 * (Output.listBytes outputs).length +
        if 76 ≤ (Output.listBytes outputs).length then 1 else 0 := by
  obtain ⟨contract, outputs, hcompile, houtputs, hsign⟩ := exists_of_build h
  obtain ⟨addresses, hvalidate⟩ := Contract.exists_validate hcompile
  obtain ⟨hcount, hleast, hshort⟩ := Payout.length_listBytes_outputs hvalidate houtputs
  exact ⟨contract, outputs, hcompile, houtputs, hleast, size_of_signInput hcompile (by omega) hshort hsign⟩

/-- A spend that can be built is created if the fee pays for its size, and refused for its size otherwise. -/
theorem create_of_build {coin : Coin} {tx : Transaction} (h : build key coin terms = .ok tx) :
    create key coin terms =
      if tx.size ≤ terms.fee.toNat then .ok tx else .error (.feeTooLow terms.fee tx.size) := by
  rw [create, h]
  change (checkFee tx terms.fee >>= fun _ => .ok tx) = _
  unfold checkFee
  by_cases hfee : tx.size ≤ terms.fee.toNat
  · rw [if_pos hfee, if_neg (not_lt.2 hfee)]
    rfl
  · rw [if_neg hfee, if_pos (not_le.1 hfee)]
    rfl

theorem build_of_create {coin : Coin} {tx : Transaction} (h : create key coin terms = .ok tx) :
    build key coin terms = .ok tx ∧ tx.size ≤ terms.fee.toNat := by
  have hcreate := h
  unfold create at h
  rw [bind_eq_ok_iff] at h
  obtain ⟨built, hbuild, -⟩ := h
  rw [create_of_build hbuild] at hcreate
  split_ifs at hcreate with hfee
  cases hcreate
  exact ⟨hbuild, hfee⟩

end Spend

end ShareCovenant
