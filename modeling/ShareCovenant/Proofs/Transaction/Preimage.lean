import Mathlib
import ShareCovenant.Proofs.Transaction.OutputList

/-!
# What a preimage determines

The fields of a preimage stand one after the other without separators. All of them but the script have one size,
and longer scripts have longer forms, so the size of a preimage gives that of its script and the fields can be cut
apart. Three of the fields are hashes, of lists that are written without their number; these lists are determined
by their bytes, and so by the preimage unless two byte strings collide.
-/

namespace ShareCovenant

/-! ## Fields of one size -/

theorem toUInt32_injective : Function.Injective Int32.toUInt32 := by
  intro m n h
  exact congrArg Int32.ofUInt32 h

/-! ## Scripts after their length -/

namespace CompactSize

theorem length_encode (n : Nat) :
    (encode n).length = if n < 0xfd then 1 else if n < 0x10000 then 3 else if n < 0x100000000 then 5 else 9 := by
  unfold encode
  split_ifs <;> simp

theorem length_encode_mono : Monotone fun n => (encode n).length := by
  intro m n h
  dsimp only
  rw [length_encode, length_encode]
  split_ifs <;> omega

theorem encodeBytes_injective : Function.Injective encodeBytes := by
  intro a b h
  -- a longer string has a longer form, so the form of a string has the size of no other length
  have hmono : StrictMono fun n => (encode n).length + n := length_encode_mono.add_strictMono strictMono_id
  have hlen : a.length = b.length := by
    apply hmono.injective
    simpa [encodeBytes] using congrArg List.length h
  rw [encodeBytes, encodeBytes, hlen] at h
  exact List.append_cancel_left h

end CompactSize

/-! ## Hashed lists -/

theorem Preimage.sequenceBytes_eq (tx : Transaction) :
    sequenceBytes tx = (tx.inputs.map Input.sequence).flatMap fun n => LittleEndian.encode 4 n.toNat := by
  rw [List.flatMap_map, sequenceBytes]

theorem Preimage.sequences_eq_of_sequenceBytes_eq {tx tx' : Transaction} (h : sequenceBytes tx = sequenceBytes tx') :
    tx.inputs.map Input.sequence = tx'.inputs.map Input.sequence := by
  rw [sequenceBytes_eq, sequenceBytes_eq] at h
  exact flatMap_injective_of_length (fun n => LittleEndian.length_encode 4 n.toNat)
    LittleEndian.encode_uint32_injective h

/-! ## Preimages -/

namespace Preimage

/-- Preimages with the same bytes are cut at the same places. -/
theorem fragments_eq_of_bytes_eq {p p' : Preimage} (h : p.bytes = p'.bytes) : p.fragments = p'.fragments :=
  eq_fragments_of_flatten_eq (map_length_fragments p) h

theorem fragments_injective : Function.Injective fragments := by
  rintro ⟨version, prevouts, sequences, outpoint, code, value, sequence, outputs, lockTime, type⟩
    ⟨version', prevouts', sequences', outpoint', code', value', sequence', outputs', lockTime', type'⟩ h
  simp only [fragments, List.cons.injEq, and_true] at h
  obtain ⟨hversion, hprevouts, hsequences, houtpoint, hcode, hvalue, hsequence, houtputs, htail⟩ := h
  obtain ⟨hlock, htype⟩ := List.append_inj htail (by simp)
  cases toUInt32_injective (LittleEndian.encode_uint32_injective hversion)
  cases Subtype.ext hprevouts
  cases Subtype.ext hsequences
  cases OutPoint.bytes_injective houtpoint
  cases CompactSize.encodeBytes_injective hcode
  cases LittleEndian.encode_uint64_injective hvalue
  cases LittleEndian.encode_uint32_injective hsequence
  cases Subtype.ext houtputs
  cases LittleEndian.encode_uint32_injective hlock
  cases LittleEndian.encode_uint32_injective htype
  rfl

theorem bytes_injective : Function.Injective bytes := fun _ _ h =>
  fragments_injective (fragments_eq_of_bytes_eq h)

theorem ofIndex?_eq_some_iff {suite : Suite} {tx : Transaction} {index : Nat} {code : Bytes} {value : UInt64}
    {type : UInt32} {p : Preimage} :
    ofIndex? suite tx index code value type = some p ↔
      ∃ input, tx.inputs[index]? = some input ∧ ofInput suite tx input code value type = p :=
  Option.map_eq_some_iff

/-- Two inputs with the same preimage, of one transaction or of two, are signed for the same spend: of the same
outpoint by the same script for the same amount, together with the same outpoints, sequences and outputs, unless
hashes collide. A locking script of `2 ^ 64` bytes or more has no length that could be written. -/
theorem fields_eq_of_bytes_eq {suite : Suite} {tx tx' : Transaction} {index index' : Nat} {code code' : Bytes}
    {value value' : UInt64} {type type' : UInt32} {p p' : Preimage}
    (h : ofIndex? suite tx index code value type = some p)
    (h' : ofIndex? suite tx' index' code' value' type' = some p') (hbytes : p.bytes = p'.bytes) :
    p.fragments = p'.fragments ∧ code = code' ∧ value = value' ∧ tx.version = tx'.version ∧
      tx.lockTime = tx'.lockTime ∧ type = type' ∧
      (∃ input input', tx.inputs[index]? = some input ∧ tx'.inputs[index']? = some input' ∧
        input.outpoint = input'.outpoint ∧ input.sequence = input'.sequence) ∧
      (Set.InjOn suite.sha256d {OutPoint.listBytes tx.outpoints, OutPoint.listBytes tx'.outpoints} →
        tx.outpoints = tx'.outpoints) ∧
      (Set.InjOn suite.sha256d {sequenceBytes tx, sequenceBytes tx'} →
        tx.inputs.map Input.sequence = tx'.inputs.map Input.sequence) ∧
      (Set.InjOn suite.sha256d {Output.listBytes tx.outputs, Output.listBytes tx'.outputs} →
        (∀ o ∈ tx.outputs, o.lockingScript.length < 2 ^ 64) →
        (∀ o ∈ tx'.outputs, o.lockingScript.length < 2 ^ 64) → tx.outputs = tx'.outputs) := by
  obtain ⟨input, hinput, rfl⟩ := ofIndex?_eq_some_iff.1 h
  obtain ⟨input', hinput', rfl⟩ := ofIndex?_eq_some_iff.1 h'
  have hfields := bytes_injective hbytes
  simp only [ofInput, mk.injEq] at hfields
  obtain ⟨hversion, hprevouts, hsequences, houtpoint, hcode, hvalue, hsequence, houtputs, hlock, htype⟩ := hfields
  refine ⟨fragments_eq_of_bytes_eq hbytes, hcode, hvalue, hversion, hlock, htype,
    ⟨input, input', hinput, hinput', houtpoint, hsequence⟩, fun hfree => ?_, fun hfree => ?_, ?_⟩
  · exact OutPoint.listBytes_injective (Set.injOn_pair.1 hfree hprevouts)
  · exact sequences_eq_of_sequenceBytes_eq (Set.injOn_pair.1 hfree hsequences)
  · intro hfree hlens hlens'
    exact Output.listBytes_injOn hlens hlens' (Set.injOn_pair.1 hfree houtputs)

/-- Two inputs that spend one output, with unlocking scripts and witnesses of their own. -/
def twinInputs : List Input :=
  [{ outpoint := ⟨FixedBytes.zero 32, 7⟩, unlockingScript := [0x51] },
   { outpoint := ⟨FixedBytes.zero 32, 7⟩, unlockingScript := [0x52], witness := [[1]] }]

/-- A spend of the twin inputs to a script with a length of three bytes. -/
def twinSpend : Transaction where
  inputs := twinInputs
  outputs := [⟨546, List.replicate 300 0x6a⟩]

theorem fields_eq_of_bytes_eq_twin :
    ∃ p p', ofIndex? Suite.standard twinSpend 0 [0x51] 1000 sighashAllForkId = some p ∧
      ofIndex? Suite.standard (twinSpend.setUnlockingScript 0 []) 1 [0x51] 1000 sighashAllForkId = some p' ∧
      p.bytes = p'.bytes ∧ p.fragments = p'.fragments ∧ twinSpend ≠ twinSpend.setUnlockingScript 0 [] ∧
      twinSpend.outpoints = (twinSpend.setUnlockingScript 0 []).outpoints ∧
      twinSpend.inputs.map Input.sequence = (twinSpend.setUnlockingScript 0 []).inputs.map Input.sequence ∧
      twinSpend.outputs = (twinSpend.setUnlockingScript 0 []).outputs := by
  have h : ofIndex? Suite.standard twinSpend 0 [0x51] 1000 sighashAllForkId =
      some (ofInput Suite.standard twinSpend twinInputs[0] [0x51] 1000 sighashAllForkId) := rfl
  have h' : ofIndex? Suite.standard (twinSpend.setUnlockingScript 0 []) 1 [0x51] 1000 sighashAllForkId =
      some (ofInput Suite.standard (twinSpend.setUnlockingScript 0 []) twinInputs[1] [0x51] 1000
        sighashAllForkId) := rfl
  have hbytes := congrArg bytes (ofInput_setUnlockingScript Suite.standard twinSpend 0 twinInputs[1] [] [0x52]
    [0x51] 1000 sighashAllForkId).symm
  have hlens : ∀ o ∈ twinSpend.outputs, o.lockingScript.length < 2 ^ 64 := by decide +kernel
  obtain ⟨hfragments, -, -, -, -, -, -, houtpoints, hsequences, houtputs⟩ := fields_eq_of_bytes_eq h h' hbytes
  refine ⟨_, _, h, h', hbytes, hfragments, by decide, houtpoints ?_, hsequences ?_, houtputs ?_ hlens hlens⟩
  · exact Set.injOn_pair.2 fun _ => by rw [Transaction.outpoints_setUnlockingScript]
  · exact Set.injOn_pair.2 fun _ => by rw [sequenceBytes_setUnlockingScript]
  · exact Set.injOn_pair.2 fun _ => rfl

end Preimage

end ShareCovenant
