import Mathlib
import ShareCovenant.Proofs.Spend.Authentication

/-!
# Enforced terms

What an accepted input says about its transaction when the spender chooses the unlocking script. The program
measures only some of the fragments. If the others have the sizes of the fields they stand for, the terms are
enforced. If they have not, the program may be led to read other bytes as the amount or as the outpoint, and
whoever knows the key can burn a coin or spend another outpoint with it.
-/

namespace ShareCovenant

open Covenant

variable {suite : Suite} {pubkey : FixedBytes 33} {terms : Terms} {contract : Contract} {tx : Transaction}
  {index : Nat} {value : UInt64} {e : Elements} {p : Preimage}

/-! ## Aligned fragments -/

namespace Covenant.Elements

/-- The fragments that the program neither hashes to nor measures have the sizes of their fields. -/
structure Aligned (e : Elements) : Prop where
  version : e.version.length = 4
  hashSequence : e.hashSequence.length = 32
  outpoint : e.outpoint.length = 36
  sequence : e.sequence.length = 4
  lockTimeAndType : e.lockTimeAndType.length = 8

theorem aligned_of_fragments_eq (h : e.fragments = p.fragments) : e.Aligned := by
  simp only [fragments, Preimage.fragments, List.cons.injEq, and_true] at h
  obtain ⟨hversion, -, hsequence, houtpoint, -, -, hseq, -, htail⟩ := h
  refine ⟨?_, ?_, ?_, ?_, ?_⟩
  · rw [hversion, LittleEndian.length_encode]
  · rw [hsequence, p.hashSequence.property]
  · rw [houtpoint, OutPoint.length_bytes]
  · rw [hseq, LittleEndian.length_encode]
  · rw [htail, List.length_append, LittleEndian.length_encode, LittleEndian.length_encode]

/-- Aligned fragments that spell a preimage are cut where its fields are. -/
theorem Aligned.fragments_eq (h : e.Aligned) (hbound : e.Bound suite) (hvalue : e.value.length = 8)
    (hspell : e.fragments.flatten = p.bytes) : e.fragments = p.fragments := by
  have hprevouts : e.hashPrevouts.length = 32 := by rw [← hbound.hashPrevouts, (suite.sha256d _).property]
  have houtputs : e.hashOutputs.length = 32 := by rw [← hbound.hashOutputs, (suite.sha256d _).property]
  have hsizes : e.fragments.map List.length = [4, 32, 32, 36, e.scriptCode.length, 8, 4, 32, 8] := by
    simp only [Elements.fragments, List.map_cons, List.map_nil, h.version, hprevouts, h.hashSequence, h.outpoint,
      hvalue, h.sequence, houtputs, h.lockTimeAndType]
  exact Preimage.eq_fragments_of_flatten_eq hsizes hspell

end Covenant.Elements

namespace Spend

/-! ## The terms as a promise -/

/-- No two byte strings collide that are hashed for an input, nor two messages of its signature. -/
structure CollisionFree (suite : Suite) (pubkey : FixedBytes 33) (tx : Transaction) (p : Preimage) (e : Elements)
    (script : Bytes) : Prop where
  hash160 : Set.InjOn suite.hash160 {script, p.scriptCode}
  sha256d : Set.InjOn suite.sha256d {e.prevouts, e.outputs, e.fragments.flatten, OutPoint.listBytes tx.outpoints,
    Preimage.sequenceBytes tx, Output.listBytes tx.outputs, p.bytes}
  challenge : ∀ r, Set.InjOn (Signature.challenge suite r pubkey)
    {suite.sha256d e.fragments.flatten, p.sighash suite}

/-- The byte strings whose hashes enter a preimage, and the preimage. -/
def hashed (tx : Transaction) (p : Preimage) : List Bytes :=
  [OutPoint.listBytes tx.outpoints, Preimage.sequenceBytes tx, Output.listBytes tx.outputs, p.bytes]

/-- The byte strings whose hashes enter a preimage, and the preimage, have different hashes. -/
def DistinctHashes (suite : Suite) (tx : Transaction) (p : Preimage) : Prop :=
  ((hashed tx p).map suite.sha256d).Nodup

instance (suite : Suite) (tx : Transaction) (p : Preimage) : Decidable (DistinctHashes suite tx p) :=
  inferInstanceAs (Decidable (List.Nodup _))

/-- Elements that spell a preimage add no byte strings to those of the transaction. -/
theorem collisionFree_of_distinctHashes (hprevouts : e.prevouts = OutPoint.listBytes tx.outpoints)
    (houtputs : e.outputs = Output.listBytes tx.outputs) (hspell : e.fragments.flatten = p.bytes)
    (hdistinct : DistinctHashes suite tx p) (index : Nat) (script : Bytes) :
    CollisionFree suite pubkey (tx.setUnlockingScript index script) p e p.scriptCode := by
  refine ⟨?_, ?_, fun r => ?_⟩
  · exact Set.injOn_pair.2 fun _ => rfl
  · have hinj : Set.InjOn suite.sha256d {m | m ∈ hashed tx p} := fun x hx y hy =>
      List.inj_on_of_nodup_map hdistinct hx hy
    refine hinj.mono fun m hm => ?_
    have hsame : (tx.setUnlockingScript index script).outputs = tx.outputs := rfl
    rw [hprevouts, houtputs, hspell, Transaction.outpoints_setUnlockingScript,
      Preimage.sequenceBytes_setUnlockingScript, hsame] at hm
    simp only [Set.mem_insert_iff, Set.mem_singleton_iff] at hm
    simp only [hashed, Set.mem_ofPred_eq, List.mem_cons, List.not_mem_nil, or_false]
    tauto
  · rw [hspell]
    exact Set.injOn_pair.2 fun _ => rfl

/-- What the terms promise of a transaction that spends an amount. -/
structure Enforced (suite : Suite) (terms : Terms) (contract : Contract) (value : UInt64) (tx : Transaction) :
    Prop where
  length_inputs : tx.inputs.length = 1
  distributed : ∀ cutoff, Share.minUnitForAll terms.parties = .ok cutoff →
    Terms.shareTotal * cutoff.toNat + terms.fee.toNat ≤ value.toNat → value ≤ maxValue →
      List.Forall₂ (PaysParty (terms.unit value)) (terms.dueParties value) tx.outputs
  split : maxValue < value → (∀ o ∈ tx.outputs, o.amount.toNat < 2 ^ 63) →
    ∃ o₁ o₂ : Output, tx.outputs = [o₁, o₂] ∧ o₁.lockingScript = contract.lockingScript suite ∧
      o₂.lockingScript = contract.lockingScript suite ∧
      o₁.amount.toNat + o₂.amount.toNat + terms.fee.toNat = value.toNat

/-- One input whose outputs obey the terms is all that is promised. -/
theorem enforced_of_obeys {addresses : List Address} (hcompile : Contract.compile pubkey terms = .ok contract)
    (hvalidate : terms.validate = .ok addresses) (hvalue : value.toNat < 2 ^ 63) (hinputs : tx.inputs.length = 1)
    (hobeys : Obeys suite terms addresses contract value tx.outputs) :
    Enforced suite terms contract value tx := by
  refine ⟨hinputs, ?_, ?_⟩
  · intro cutoff hcutoff hmin hmax
    have hunit : cutoff.toNat ≤ terms.unit value := by
      unfold Terms.unit Terms.shareTotal at *
      omega
    have hsome := (Terms.someDue_iff hcutoff value).2 hunit
    exact (obeys_iff_paysParty (Terms.valid_of_validate hvalidate) hmax hsome _).1 hobeys
  · intro hmin hamounts
    exact (obeys_iff_of_exceeds hcompile hmin hvalue hamounts).1 hobeys

/-- An accepted input whose fragments are those of its preimage obeys the terms for its amount. -/
theorem obeys_of_fragments_eq {addresses : List Address} {input : Input} {script : Bytes}
    (hp : p = Preimage.ofInput suite tx input contract.script value sighashAllForkId)
    (hadmitted : e.Admitted suite ⟨tx, index, value, contract.script⟩ pubkey terms addresses)
    (hfree : CollisionFree suite pubkey tx p e script) (hinput : tx.inputs[index]? = some input)
    (hfragments : e.fragments = p.fragments) :
    tx.inputs.length = 1 ∧ Obeys suite terms addresses contract value tx.outputs := by
  subst hp
  simp only [Elements.fragments, Preimage.fragments, Preimage.ofInput, List.cons.injEq, and_true] at hfragments
  obtain ⟨-, hhashPrevouts, -, houtpoint, hscriptCode, hamount, -, hhashOutputs, -⟩ := hfragments
  have hprevouts : e.prevouts = OutPoint.listBytes tx.outpoints := by
    refine hfree.sha256d (by simp) (by simp) (Subtype.ext ?_)
    rw [hadmitted.bound.hashPrevouts, hhashPrevouts]
  have houtputs : e.outputs = Output.listBytes tx.outputs := by
    refine hfree.sha256d (by simp) (by simp) (Subtype.ext ?_)
    rw [hadmitted.bound.hashOutputs, hhashOutputs]
  have hone : OutPoint.listBytes tx.outpoints = input.outpoint.bytes := by
    rw [← hprevouts, hadmitted.bound.outpoint, houtpoint]
  refine ⟨(outpoints_eq_singleton_iff hinput).1 ((OutPoint.listBytes_eq_bytes_iff _ _).1 hone), ?_⟩
  have hpays := hadmitted.outputs
  rwa [hamount, hscriptCode, houtputs] at hpays

/-- Against a spender who chooses all pushes, the program reads the fields of the preimage exactly if the
fragments are aligned, and then the terms are enforced. -/
theorem enforced_of_verifySpend (hc : suite.curve.PrimeOrder)
    (hcompile : Contract.compile pubkey terms = .ok contract) (hvalue : value.toNat < 2 ^ 63) {input : Input}
    (hinput : tx.inputs[index]? = some input) {script : Bytes}
    (hpushes : Script.pushes input.unlockingScript = .ok (e.pushed ++ [script]))
    (hfree : CollisionFree suite pubkey tx
      (Preimage.ofInput suite tx input contract.script value sighashAllForkId) e script)
    (haccepted : Contract.verifySpend suite tx index value contract = .ok ()) :
    (e.Aligned ↔ e.fragments = (Preimage.ofInput suite tx input contract.script value
      sighashAllForkId).fragments) ∧ (e.Aligned → Enforced suite terms contract value tx) := by
  obtain ⟨addresses, hvalidate⟩ := Contract.exists_validate hcompile
  obtain ⟨input', script', s, hinput', hpushes', hhash, -⟩ := Contract.verifySpend_eq_ok_iff.1 haccepted
  rw [hinput, Option.some.injEq] at hinput'
  rw [← hinput', hpushes, Except.ok.injEq] at hpushes'
  have hlast := (List.append_inj' hpushes' rfl).2
  rw [List.cons.injEq] at hlast
  obtain rfl : script = contract.script :=
    hfree.hash160 (Set.mem_insert _ _) (Set.mem_insert_of_mem _ rfl) (by rw [hlast.1]; exact hhash)
  obtain ⟨e', hpushed, hadmitted⟩ :=
    exists_admitted hcompile hvalidate hinput hpushes List.getLast?_concat haccepted
  obtain rfl := Elements.pushed_injective (List.append_inj' hpushed rfl).1
  obtain ⟨sig, p, -, hp, hchallenge⟩ := hadmitted.signed.exists_challenge_eq hc
  obtain rfl : Preimage.ofInput suite tx input contract.script value sighashAllForkId = p := by
    rw [Preimage.ofIndex?, hinput] at hp
    exact Option.some.inj hp
  have hspell : e.fragments.flatten = (Preimage.ofInput suite tx input contract.script value
      sighashAllForkId).bytes := by
    refine eq_of_challenge_eq (hfree.challenge _) (hfree.sha256d.mono ?_) hchallenge
    rintro m (rfl | rfl) <;> simp
  have hfields : e.Aligned → e.fragments = _ := fun haligned =>
    haligned.fragments_eq hadmitted.bound hadmitted.length_value hspell
  refine ⟨⟨hfields, Elements.aligned_of_fragments_eq⟩, fun haligned => ?_⟩
  obtain ⟨hinputs, hobeys⟩ := obeys_of_fragments_eq rfl hadmitted hfree hinput (hfields haligned)
  exact enforced_of_obeys hcompile hvalidate hvalue hinputs hobeys

/-- The preimage of the spend that pays the parties. -/
def samplePreimage (contract : Contract) (outputs : List Output) : Preimage :=
  Preimage.ofInput Suite.standard (unsigned sampleCoin.outpoint outputs) { outpoint := sampleCoin.outpoint }
    contract.script sampleCoin.value sighashAllForkId

theorem exists_sampleDistinct :
    ∃ (key : Suite.standard.curve.Scalar) (contract : Contract) (outputs : List Output),
      Key.published Suite.standard = .ok key ∧
      Contract.compile (Key.publicKey key) sampleTerms = .ok contract ∧
      Payout.outputs Suite.standard sampleCoin.value sampleTerms contract = .ok outputs ∧
      DistinctHashes Suite.standard (unsigned sampleCoin.outpoint outputs) (samplePreimage contract outputs) := by
  have h : ((Key.published Suite.standard).toOption.bind fun key =>
      (Contract.compile (Key.publicKey key) sampleTerms).toOption.bind fun contract =>
      (Payout.outputs Suite.standard sampleCoin.value sampleTerms contract).toOption.map fun outputs =>
        decide (DistinctHashes Suite.standard (unsigned sampleCoin.outpoint outputs)
          (samplePreimage contract outputs))) = some true := by
    decide +kernel
  simp only [Option.bind_eq_some_iff, Option.map_eq_some_iff, toOption_eq_some_iff, decide_eq_true_eq] at h
  obtain ⟨key, hkey, contract, hcompile, outputs, houtputs, hdistinct⟩ := h
  exact ⟨key, contract, outputs, hkey, hcompile, houtputs, hdistinct⟩

theorem enforced_of_verifySpend_sample :
    ∃ (key : Suite.standard.curve.Scalar) (contract : Contract) (tx : Transaction) (input : Input) (e : Elements),
      Suite.standard.curve.PrimeOrder ∧ Contract.compile (Key.publicKey key) sampleTerms = .ok contract ∧
      sampleCoin.value.toNat < 2 ^ 63 ∧ tx.inputs[0]? = some input ∧
      Script.pushes input.unlockingScript = .ok (e.pushed ++ [contract.script]) ∧
      CollisionFree Suite.standard (Key.publicKey key) tx (Preimage.ofInput Suite.standard tx input
        contract.script sampleCoin.value sighashAllForkId) e contract.script ∧
      Contract.verifySpend Suite.standard tx 0 sampleCoin.value contract = .ok () ∧
      e.Aligned ∧ Enforced Suite.standard sampleTerms contract sampleCoin.value tx := by
  have hc : Suite.standard.curve.PrimeOrder := Curve.primeOrder_secp256k1
  have hvalue : sampleCoin.value.toNat < 2 ^ 63 := by decide
  obtain ⟨key, tx, hkey, hbuild⟩ := exists_sampleSpend
  obtain ⟨contract, outputs, hcompile, houtputs, hsign⟩ := exists_of_build hbuild
  obtain ⟨key', contract', outputs', hkey', hcompile', houtputs', hdistinct⟩ := exists_sampleDistinct
  cases hkey.symm.trans hkey'
  cases hcompile.symm.trans hcompile'
  cases houtputs.symm.trans houtputs'
  have haccepted := verifySpend_of_outputs hc hcompile hvalue houtputs hsign
  obtain ⟨input, sig, script, hinput, -, hpushes, rfl⟩ := exists_of_signInput hsign
  cases hinput
  rw [elements_eq] at hpushes
  have hinput : ((unsigned sampleCoin.outpoint outputs).setUnlockingScript 0 script).inputs[0]? = some _ :=
    Transaction.getElem?_setUnlockingScript rfl script
  have hfree : CollisionFree Suite.standard (Key.publicKey key) _ (samplePreimage contract outputs)
      (Elements.ofSigned (unsigned sampleCoin.outpoint outputs) sig (samplePreimage contract outputs))
      contract.script := collisionFree_of_distinctHashes rfl rfl rfl hdistinct 0 script
  rw [samplePreimage, ← Preimage.ofInput_setUnlockingScript _ _ 0 _ script script] at hfree
  obtain ⟨haligned, henforced⟩ := enforced_of_verifySpend hc hcompile hvalue hinput hpushes hfree haccepted
  have hfields := haligned.2 (by rw [Preimage.ofInput_setUnlockingScript]; rfl)
  exact ⟨key, contract, _, _, _, hc, hcompile, hvalue, hinput, hpushes, hfree, haccepted, hfields,
    henforced hfields⟩

/-! ## Other boundaries -/

/-- Signs the first input of a transaction and pushes its elements with the boundaries that `recut` gives them. -/
def signRecut (key : suite.curve.Scalar) (tx : Transaction) (p : Preimage) (contract : Contract)
    (recut : Elements → Elements) : Except ContractError Transaction := do
  let sig ← (Signature.sign key (p.sighash suite)).mapError .key
  let script ← (Script.pushAll ((recut (Elements.ofSigned tx sig p)).pushed ++ [contract.script])).mapError .build
  return tx.setUnlockingScript 0 script

theorem exists_of_signRecut {key : suite.curve.Scalar} {recut : Elements → Elements} {tx' : Transaction}
    (h : signRecut key tx p contract recut = .ok tx') :
    ∃ sig script, Signature.sign key (p.sighash suite) = .ok sig ∧
      Script.pushes script = .ok ((recut (Elements.ofSigned tx sig p)).pushed ++ [contract.script]) ∧
      tx' = tx.setUnlockingScript 0 script := by
  unfold signRecut at h
  rw [bind_eq_ok_iff] at h
  obtain ⟨sig, hsig, h⟩ := h
  rw [bind_eq_ok_iff] at h
  obtain ⟨script, hpush, h⟩ := h
  cases h
  exact ⟨sig, script, mapError_eq_ok_iff.1 hsig, Script.pushes_of_pushAll (mapError_eq_ok_iff.1 hpush), rfl⟩

/-- Other boundaries leave every byte string that is hashed as it was, so they add no collisions. -/
theorem exists_collisionFree_of_signRecut {key : suite.curve.Scalar} {recut : Elements → Elements}
    {tx' : Transaction} {input : Input} (hinput : tx.inputs[0]? = some input)
    (hp : p = Preimage.ofInput suite tx input contract.script value sighashAllForkId)
    (h : signRecut key tx p contract recut = .ok tx') (hprevouts : ∀ e, (recut e).prevouts = e.prevouts)
    (houtputs : ∀ e, (recut e).outputs = e.outputs)
    (hflatten : ∀ e, (recut e).fragments.flatten = e.fragments.flatten) (hdistinct : DistinctHashes suite tx p) :
    ∃ input' e, tx'.inputs[0]? = some input' ∧
      Script.pushes input'.unlockingScript = .ok (e.pushed ++ [contract.script]) ∧
      CollisionFree suite pubkey tx' (Preimage.ofInput suite tx' input' contract.script value sighashAllForkId) e
        contract.script := by
  obtain ⟨sig, script, -, hpushes, rfl⟩ := exists_of_signRecut h
  refine ⟨_, _, Transaction.getElem?_setUnlockingScript hinput script, hpushes, ?_⟩
  have hcode : p.scriptCode = contract.script := hp ▸ rfl
  have hfree : CollisionFree suite pubkey (tx.setUnlockingScript 0 script) p (recut (Elements.ofSigned tx sig p))
      p.scriptCode :=
    collisionFree_of_distinctHashes (hprevouts _) (houtputs _) (hflatten _) hdistinct 0 script
  rwa [Preimage.ofInput_setUnlockingScript, ← hp, ← hcode]

end Spend

/-! ## Burning coins -/

namespace Covenant.Elements

/-- The elements with other boundaries: the script takes the first half of the amount, and the sequence takes
the place of the second. -/
def shifted (e : Elements) : Elements :=
  { e with
    scriptCode := e.scriptCode ++ e.value.take 4
    value := e.value.drop 4 ++ e.sequence
    sequence := [] }

theorem flatten_fragments_shifted (e : Elements) : e.shifted.fragments.flatten = e.fragments.flatten := by
  simp [fragments, shifted, take_append_drop_append]

end Covenant.Elements

namespace Spend

/-- A transaction that pays nobody, with the smallest sequence. -/
def burning (outpoint : OutPoint) : Transaction :=
  { unsigned outpoint [noPayoutOutput] with inputs := [{ outpoint := outpoint, sequence := 0 }] }

/-- The preimage of the input of a transaction that pays nobody. -/
def burningPreimage (suite : Suite) (coin : Coin) (contract : Contract) : Preimage :=
  Preimage.ofInput suite (burning coin.outpoint) { outpoint := coin.outpoint, sequence := 0 } contract.script
    coin.value sighashAllForkId

/-- The elements that are pushed for a transaction that pays nobody. -/
def burningElements (suite : Suite) (coin : Coin) (contract : Contract) (sig : FixedBytes 64) : Elements :=
  (Elements.ofSigned (burning coin.outpoint) sig (burningPreimage suite coin contract)).shifted

/-- Pays nobody, whatever the terms prescribe, and pushes shifted fragments. -/
def burn (key : suite.curve.Scalar) (coin : Coin) (contract : Contract) : Except ContractError Transaction :=
  signRecut key (burning coin.outpoint) (burningPreimage suite coin contract) contract Elements.shifted

theorem exists_of_burn {key : suite.curve.Scalar} {coin : Coin} (h : burn key coin contract = .ok tx) :
    ∃ sig script, Signature.sign key ((burningPreimage suite coin contract).sighash suite) = .ok sig ∧
      Script.pushes script = .ok ((burningElements suite coin contract sig).pushed ++ [contract.script]) ∧
      tx = (burning coin.outpoint).setUnlockingScript 0 script :=
  exists_of_signRecut h

/-- The amount that the program reads is zero, if the amount of the coin is below the second half. -/
theorem value_burningElements {coin : Coin} (hvalue : coin.value.toNat < 2 ^ 32) (sig : FixedBytes 64) :
    (burningElements suite coin contract sig).value = LittleEndian.encode 8 (0 : UInt64).toNat := by
  change (LittleEndian.encode 8 coin.value.toNat).drop 4 ++ LittleEndian.encode 4 0 = _
  rw [show (8 : Nat) = 4 + 4 from rfl, LittleEndian.encode_add,
    List.drop_left' (LittleEndian.length_encode 4 _), Nat.div_eq_of_lt (b := 256 ^ 4) hvalue]
  rfl

theorem flatten_burningElements (coin : Coin) (sig : FixedBytes 64) :
    (burningElements suite coin contract sig).fragments.flatten = (burningPreimage suite coin contract).bytes :=
  Elements.flatten_fragments_shifted _

theorem listBytes_outpoints_burning (outpoint : OutPoint) :
    OutPoint.listBytes (burning outpoint).outpoints = outpoint.bytes :=
  List.flatMap_singleton _ _

theorem length_burningElements_le (hcompile : Contract.compile pubkey terms = .ok contract) (coin : Coin)
    (sig : FixedBytes 64) :
    ∀ item ∈ (burningElements suite coin contract sig).pushed, item.length ≤ maxElementSize := by
  have hcode := Contract.length_scriptCode_add_le hcompile
  generalize hp : burningPreimage suite coin contract = p
  have hscript : p.scriptCode = contract.script := by
    rw [← hp]
    rfl
  have houtputs : (Output.listBytes (burning coin.outpoint).outputs).length = 10 := rfl
  have hlonger : (CompactSize.encodeBytes contract.script).length + 4 ≤ maxElementSize := by omega
  unfold maxElementSize at *
  simpa [burningElements, hp, Elements.shifted, Elements.pushed, Elements.fragments, Elements.ofSigned, hscript,
    houtputs, listBytes_outpoints_burning, OutPoint.length_bytes, sig.property, p.hashPrevouts.property,
    p.hashSequence.property, p.hashOutputs.property] using hlonger

/-- An amount of zero asks for outputs that pay nobody. -/
theorem distributes_zero {addresses : List Address} (hvalid : terms.Valid addresses) :
    Distributes terms.fee.toNat terms.parties addresses (LittleEndian.encode 8 (0 : UInt64).toNat)
      (Output.listBytes [noPayoutOutput]) := by
  have hmax : (0 : UInt64) ≤ maxValue := by decide
  have hnone : ¬terms.SomeDue 0 := Terms.not_someDue_of_lt hvalid.fee.1
  refine (distributes_iff hvalid hmax _).2 (Or.inr ⟨hnone, ?_⟩)
  rw [Output.listBytes, List.flatMap_singleton]

/-- Whoever knows the key can burn a coin whose amount is below the second half. -/
theorem verifySpend_of_burn (hc : suite.curve.PrimeOrder) {key : suite.curve.Scalar} {coin : Coin}
    (hcompile : Contract.compile (Key.publicKey key) terms = .ok contract) (hvalue : coin.value.toNat < 2 ^ 32)
    (h : burn key coin contract = .ok tx) : Contract.verifySpend suite tx 0 coin.value contract = .ok () := by
  obtain ⟨addresses, hvalidate⟩ := Contract.exists_validate hcompile
  obtain ⟨sig, script, hsig, hpushes, rfl⟩ := exists_of_burn h
  have hread : (burningElements suite coin contract sig).value = _ := value_burningElements hvalue sig
  rw [verifySpend_spelled_iff hc hcompile hvalidate rfl rfl hsig rfl (flatten_burningElements coin sig) hpushes]
  refine ⟨length_burningElements_le hcompile coin sig, ⟨rfl, listBytes_outpoints_burning _, rfl⟩, ?_, ?_⟩
  · rw [hread, LittleEndian.length_encode]
  · rw [hread, exceeds_encode (by decide), if_neg (by decide)]
    exact distributes_zero (Terms.valid_of_validate hvalidate)

/-- A burnt coin breaks the promise of terms that pay some party. -/
theorem not_enforced_of_burn {key : suite.curve.Scalar} {coin : Coin} (h : burn key coin contract = .ok tx)
    {cutoff : UInt64} (hcutoff : Share.minUnitForAll terms.parties = .ok cutoff)
    (hmin : Terms.shareTotal * cutoff.toNat + terms.fee.toNat ≤ coin.value.toNat) (hmax : coin.value ≤ maxValue) :
    ¬Enforced suite terms contract coin.value tx := by
  intro henforced
  obtain ⟨-, script, -, -, rfl⟩ := exists_of_burn h
  have hpays := henforced.distributed cutoff hcutoff hmin hmax
  change List.Forall₂ _ _ [noPayoutOutput] at hpays
  obtain ⟨p, parties, ⟨a, -, -, hleast, -⟩, -, hdue⟩ := List.forall₂_cons_right_iff.1 hpays
  have hp : p ∈ terms.dueParties coin.value := by
    rw [hdue]
    exact List.mem_cons_self
  have hdust := of_decide_eq_true (List.mem_filter.1 hp).2
  have hzero : noPayoutOutput.amount.toNat = 0 := rfl
  omega

theorem exists_sampleBurn :
    ∃ (key : Suite.standard.curve.Scalar) (contract : Contract) (tx : Transaction),
      Key.published Suite.standard = .ok key ∧
      Contract.compile (Key.publicKey key) sampleTerms = .ok contract ∧
      burn key sampleCoin contract = .ok tx ∧
      DistinctHashes Suite.standard (burning sampleCoin.outpoint)
        (burningPreimage Suite.standard sampleCoin contract) := by
  have h : ((Key.published Suite.standard).toOption.bind fun key =>
      (Contract.compile (Key.publicKey key) sampleTerms).toOption.bind fun contract =>
      (burn key sampleCoin contract).toOption.map fun _ =>
        decide (DistinctHashes Suite.standard (burning sampleCoin.outpoint)
          (burningPreimage Suite.standard sampleCoin contract))) = some true := by
    decide +kernel
  simp only [Option.bind_eq_some_iff, Option.map_eq_some_iff, toOption_eq_some_iff, decide_eq_true_eq] at h
  obtain ⟨key, hkey, contract, hcompile, tx, hburn, hdistinct⟩ := h
  exact ⟨key, contract, tx, hkey, hcompile, hburn, hdistinct⟩

/-- The coin of the published key can be burnt, though its terms pay both parties and no hashes collide. -/
theorem not_enforced_of_burn_sample :
    ∃ (key : Suite.standard.curve.Scalar) (contract : Contract) (tx : Transaction) (input : Input) (e : Elements),
      Key.published Suite.standard = .ok key ∧
      Contract.compile (Key.publicKey key) sampleTerms = .ok contract ∧ sampleCoin.value.toNat < 2 ^ 63 ∧
      burn key sampleCoin contract = .ok tx ∧ tx.inputs[0]? = some input ∧
      Script.pushes input.unlockingScript = .ok (e.pushed ++ [contract.script]) ∧
      CollisionFree Suite.standard (Key.publicKey key) tx (Preimage.ofInput Suite.standard tx input
        contract.script sampleCoin.value sighashAllForkId) e contract.script ∧
      Contract.verifySpend Suite.standard tx 0 sampleCoin.value contract = .ok () ∧
      ¬Enforced Suite.standard sampleTerms contract sampleCoin.value tx := by
  obtain ⟨key, contract, tx, hkey, hcompile, hburn, hdistinct⟩ := exists_sampleBurn
  have haccepted := verifySpend_of_burn Curve.primeOrder_secp256k1 hcompile (by decide) hburn
  have hcutoff : Share.minUnitForAll sampleTerms.parties = .ok 1 := rfl
  have hbroken := not_enforced_of_burn hburn hcutoff (by decide) (by decide)
  obtain ⟨input, e, hinput, hpushes, hfree⟩ := exists_collisionFree_of_signRecut rfl rfl hburn (fun _ => rfl)
    (fun _ => rfl) Elements.flatten_fragments_shifted hdistinct
  exact ⟨key, contract, tx, input, e, hkey, hcompile, by decide, hburn, hinput, hpushes, hfree, haccepted, hbroken⟩

end Spend

/-! ## Joining another outpoint -/

namespace Covenant.Elements

/-- The elements with other boundaries: the outpoint goes on with as many bytes of the script as another outpoint
has. -/
def widened (e : Elements) : Elements :=
  { e with
    outpoint := e.outpoint ++ e.scriptCode.take 36
    scriptCode := e.scriptCode.drop 36 }

theorem flatten_fragments_widened (e : Elements) : e.widened.fragments.flatten = e.fragments.flatten := by
  simp [fragments, widened, take_append_drop_append]

end Covenant.Elements

/-- The outpoint that the first bytes spell. -/
def OutPoint.spelledBy (bytes : Bytes) : OutPoint where
  txid := BigEndian.fixed 32 (BigEndian.decode (bytes.take 32))
  index := UInt32.ofNat (LittleEndian.decode ((bytes.drop 32).take 4))

theorem OutPoint.bytes_spelledBy {bs : Bytes} (h : 36 ≤ bs.length) : (spelledBy bs).bytes = bs.take 36 := by
  have htxid : (bs.take 32).length = 32 := List.length_take_of_le (by omega)
  have hindex : ((bs.drop 32).take 4).length = 4 := List.length_take_of_le (by rw [List.length_drop]; omega)
  have hmod : (UInt32.ofNat (LittleEndian.decode ((bs.drop 32).take 4))).toNat =
      LittleEndian.decode ((bs.drop 32).take 4) % 256 ^ 4 := UInt32.toNat_ofNat'
  have htail := LittleEndian.encode_decode ((bs.drop 32).take 4)
  have hhead := BigEndian.encode_decode (bs.take 32)
  rw [hindex] at htail
  rw [htxid] at hhead
  change BigEndian.encode 32 _ ++ LittleEndian.encode 4 (UInt32.ofNat _).toNat = _
  rw [hhead, hmod, LittleEndian.encode_mod, htail, ← List.take_add]

namespace Spend

/-- A transaction that spends an outpoint of a contract and the one that the script of the contract spells. -/
def joined (outpoint : OutPoint) (contract : Contract) (outputs : List Output) : Transaction :=
  { unsigned outpoint outputs with
    inputs := [{ outpoint := outpoint }, { outpoint := .spelledBy (CompactSize.encodeBytes contract.script) }] }

/-- The preimage of its first input. -/
def joinedPreimage (suite : Suite) (coin : Coin) (contract : Contract) (outputs : List Output) : Preimage :=
  Preimage.ofInput suite (joined coin.outpoint contract outputs) { outpoint := coin.outpoint } contract.script
    coin.value sighashAllForkId

/-- Spends a coin together with another outpoint, and pushes widened fragments. -/
def join (key : suite.curve.Scalar) (coin : Coin) (contract : Contract) (outputs : List Output) :
    Except ContractError Transaction :=
  signRecut key (joined coin.outpoint contract outputs) (joinedPreimage suite coin contract outputs) contract
    Elements.widened

/-- The elements that are pushed for it. -/
def joinedElements (suite : Suite) (coin : Coin) (contract : Contract) (outputs : List Output) (sig : FixedBytes 64) :
    Elements :=
  (Elements.ofSigned (joined coin.outpoint contract outputs) sig
    (joinedPreimage suite coin contract outputs)).widened

/-- The pushed outpoints are taken for the outpoint of the input. -/
theorem prevouts_joinedElements (hcompile : Contract.compile pubkey terms = .ok contract) (coin : Coin)
    (outputs : List Output) (sig : FixedBytes 64) :
    (joinedElements suite coin contract outputs sig).prevouts =
      (joinedElements suite coin contract outputs sig).outpoint := by
  have hcode := Contract.length_scriptCode hcompile
  obtain ⟨-, -, -, hlong, -⟩ := Contract.exists_of_compile hcompile
  unfold Contract.maxShortScript at hlong
  change OutPoint.listBytes [coin.outpoint, .spelledBy (CompactSize.encodeBytes contract.script)] =
    coin.outpoint.bytes ++ (CompactSize.encodeBytes contract.script).take 36
  rw [OutPoint.listBytes, List.flatMap_cons, List.flatMap_singleton, OutPoint.bytes_spelledBy (by omega)]

theorem length_joinedElements_le (hcompile : Contract.compile pubkey terms = .ok contract) (coin : Coin)
    {outputs : List Output} (houtputs : (Output.listBytes outputs).length ≤ maxElementSize) (sig : FixedBytes 64) :
    ∀ item ∈ (joinedElements suite coin contract outputs sig).pushed, item.length ≤ maxElementSize := by
  have hcode := Contract.length_scriptCode_add_le hcompile
  have hprevouts : (OutPoint.listBytes (joined coin.outpoint contract outputs).outpoints).length = 72 :=
    OutPoint.length_listBytes _
  have hsame : (joined coin.outpoint contract outputs).outputs = outputs := rfl
  generalize hp : joinedPreimage suite coin contract outputs = p
  have hscript : p.scriptCode = contract.script := by
    rw [← hp]
    rfl
  unfold maxElementSize at *
  simp [joinedElements, hp, Elements.widened, Elements.pushed, Elements.fragments, Elements.ofSigned, hscript, hsame,
    hprevouts, houtputs, OutPoint.length_bytes, sig.property, p.hashPrevouts.property, p.hashSequence.property,
    p.hashOutputs.property]
  omega

/-- Whoever knows the key can spend the outpoint that the script spells together with a coin. -/
theorem verifySpend_of_join (hc : suite.curve.PrimeOrder) {key : suite.curve.Scalar} {coin : Coin}
    (hcompile : Contract.compile (Key.publicKey key) terms = .ok contract) (hvalue : coin.value ≤ maxValue)
    {outputs : List Output} (houtputs : Payout.outputs suite coin.value terms contract = .ok outputs)
    (h : join key coin contract outputs = .ok tx) :
    Contract.verifySpend suite tx 0 coin.value contract = .ok () ∧ tx.inputs.length = 2 := by
  obtain ⟨addresses, hvalidate⟩ := Contract.exists_validate hcompile
  have hmax : coin.value.toNat < 2 ^ 63 := (UInt64.le_iff_toNat_le.1 hvalue).trans_lt (by decide)
  obtain ⟨hsize, hobeys⟩ := obeys_of_outputs hcompile hvalidate hmax houtputs
  obtain ⟨sig, script, hsig, hpushes, rfl⟩ := exists_of_signRecut h
  refine ⟨?_, Transaction.length_inputs_setUnlockingScript ..⟩
  rw [verifySpend_spelled_iff hc hcompile hvalidate rfl rfl hsig rfl (Elements.flatten_fragments_widened _) hpushes]
  refine ⟨length_joinedElements_le hcompile coin hsize sig,
    ⟨rfl, prevouts_joinedElements hcompile coin outputs sig, rfl⟩, LittleEndian.length_encode _ _, ?_⟩
  rw [obeys_iff_of_le hvalue] at hobeys
  change if exceeds (LittleEndian.encode 8 coin.value.toNat) then _ else _
  rw [exceeds_encode_of_le hvalue, if_neg Bool.false_ne_true]
  exact hobeys

theorem exists_sampleJoin :
    ∃ (key : Suite.standard.curve.Scalar) (contract : Contract) (outputs : List Output) (tx : Transaction),
      Key.published Suite.standard = .ok key ∧
      Contract.compile (Key.publicKey key) sampleTerms = .ok contract ∧
      Payout.outputs Suite.standard sampleCoin.value sampleTerms contract = .ok outputs ∧
      join key sampleCoin contract outputs = .ok tx ∧
      DistinctHashes Suite.standard (joined sampleCoin.outpoint contract outputs)
        (joinedPreimage Suite.standard sampleCoin contract outputs) := by
  have h : ((Key.published Suite.standard).toOption.bind fun key =>
      (Contract.compile (Key.publicKey key) sampleTerms).toOption.bind fun contract =>
      (Payout.outputs Suite.standard sampleCoin.value sampleTerms contract).toOption.bind fun outputs =>
      (join key sampleCoin contract outputs).toOption.map fun _ =>
        decide (DistinctHashes Suite.standard (joined sampleCoin.outpoint contract outputs)
          (joinedPreimage Suite.standard sampleCoin contract outputs))) = some true := by
    decide +kernel
  simp only [Option.bind_eq_some_iff, Option.map_eq_some_iff, toOption_eq_some_iff, decide_eq_true_eq] at h
  obtain ⟨key, hkey, contract, hcompile, outputs, houtputs, tx, hjoin, hdistinct⟩ := h
  exact ⟨key, contract, outputs, tx, hkey, hcompile, houtputs, hjoin, hdistinct⟩

/-- Another outpoint is spent with the coin of the published key, though no hashes collide. -/
theorem not_enforced_of_join_sample :
    ∃ (key : Suite.standard.curve.Scalar) (contract : Contract) (outputs : List Output) (tx : Transaction)
      (input : Input) (e : Elements),
      Key.published Suite.standard = .ok key ∧
      Contract.compile (Key.publicKey key) sampleTerms = .ok contract ∧
      join key sampleCoin contract outputs = .ok tx ∧ tx.inputs[0]? = some input ∧
      Script.pushes input.unlockingScript = .ok (e.pushed ++ [contract.script]) ∧
      CollisionFree Suite.standard (Key.publicKey key) tx (Preimage.ofInput Suite.standard tx input
        contract.script sampleCoin.value sighashAllForkId) e contract.script ∧
      Contract.verifySpend Suite.standard tx 0 sampleCoin.value contract = .ok () ∧
      ¬Enforced Suite.standard sampleTerms contract sampleCoin.value tx := by
  obtain ⟨key, contract, outputs, tx, hkey, hcompile, houtputs, hjoin, hdistinct⟩ := exists_sampleJoin
  obtain ⟨haccepted, hpair⟩ :=
    verifySpend_of_join Curve.primeOrder_secp256k1 hcompile (by decide) houtputs hjoin
  have hbroken : ¬Enforced Suite.standard sampleTerms contract sampleCoin.value tx := by
    intro henforced
    have hone := henforced.length_inputs
    omega
  obtain ⟨input, e, hinput, hpushes, hfree⟩ := exists_collisionFree_of_signRecut rfl rfl hjoin (fun _ => rfl)
    (fun _ => rfl) Elements.flatten_fragments_widened hdistinct
  exact ⟨key, contract, outputs, tx, input, e, hkey, hcompile, hjoin, hinput, hpushes, hfree, haccepted, hbroken⟩

end Spend

end ShareCovenant
