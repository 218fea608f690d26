import Mathlib
import ShareCovenant.Contract.Verify
import ShareCovenant.Proofs.Spend.Signing

/-!
# Inputs are signed independently

Neither the preimage of an input nor the elements that are pushed for it read an unlocking script or a witness, so
inputs are signed in any order and as often as one likes. Signing in place writes once, after all that can fail.
Verifying an input reads the unlocking script of that input only.
-/

namespace ShareCovenant

variable {suite : Suite}

/-! ## What signing reads -/

namespace Transaction

/-- The transaction without unlocking scripts and witnesses. -/
def bare (tx : Transaction) : Transaction :=
  { tx with inputs := tx.inputs.map fun i => { i with unlockingScript := [], witness := [] } }

/-- The transaction with other unlocking scripts and witnesses at all inputs but one. -/
def replaceOthers (tx : Transaction) (index : Nat) (scripts : Nat → Bytes) (witnesses : Nat → Witness) :
    Transaction :=
  { tx with inputs := tx.inputs.mapIdx fun j i =>
      if j = index then i else { i with unlockingScript := scripts j, witness := witnesses j } }

variable (tx : Transaction)

theorem getElem?_bare (index : Nat) :
    tx.bare.inputs[index]? = tx.inputs[index]?.map fun i => { i with unlockingScript := [], witness := [] } := by
  rw [bare, List.getElem?_map]

theorem length_inputs_bare : tx.bare.inputs.length = tx.inputs.length := List.length_map _

theorem outpoints_bare : tx.bare.outpoints = tx.outpoints := List.map_map

theorem bare_setUnlockingScript (index : Nat) (script : Bytes) :
    (tx.setUnlockingScript index script).bare = tx.bare := by
  unfold bare
  rw [map_inputs_setUnlockingScript _ (fun _ _ => rfl)]
  rfl

theorem bare_replaceOthers (index : Nat) (scripts : Nat → Bytes) (witnesses : Nat → Witness) :
    (tx.replaceOthers index scripts witnesses).bare = tx.bare := by
  unfold bare replaceOthers
  congr 1
  apply List.ext_getElem?
  intro j
  simp only [List.getElem?_map, List.getElem?_mapIdx, Option.map_map]
  congr 1
  funext i
  dsimp only [Function.comp]
  split_ifs <;> rfl

theorem getElem?_replaceOthers (index : Nat) (scripts : Nat → Bytes) (witnesses : Nat → Witness) :
    (tx.replaceOthers index scripts witnesses).inputs[index]? = tx.inputs[index]? := by
  rw [replaceOthers, List.getElem?_mapIdx]
  simp

theorem setUnlockingScript_eq_set {tx : Transaction} {index : Nat} {input : Input}
    (h : tx.inputs[index]? = some input) (script : Bytes) :
    tx.setUnlockingScript index script =
      { tx with inputs := tx.inputs.set index { input with unlockingScript := script } } := by
  rw [setUnlockingScript, List.modify_eq_set_getElem?, h]
  rfl

theorem setUnlockingScript_self (index : Nat) (script script' : Bytes) :
    (tx.setUnlockingScript index script).setUnlockingScript index script' = tx.setUnlockingScript index script' := by
  simp only [setUnlockingScript, List.modify_modify_eq]
  rfl

theorem setUnlockingScript_comm {i j : Nat} (h : i ≠ j) (script script' : Bytes) :
    (tx.setUnlockingScript i script).setUnlockingScript j script' =
      (tx.setUnlockingScript j script').setUnlockingScript i script := by
  simp only [setUnlockingScript]
  rw [List.modify_modify_ne _ _ _ h]

end Transaction

namespace Preimage

theorem sequenceBytes_bare (tx : Transaction) : sequenceBytes tx.bare = sequenceBytes tx := List.flatMap_map ..

theorem ofIndex?_bare (tx : Transaction) (index : Nat) (scriptCode : Bytes) (value : UInt64) (type : UInt32) :
    ofIndex? suite tx.bare index scriptCode value type = ofIndex? suite tx index scriptCode value type := by
  rw [ofIndex?, ofIndex?, Transaction.getElem?_bare, Option.map_map]
  congr 1
  funext i
  simp only [Function.comp, ofInput, Transaction.outpoints_bare, sequenceBytes_bare]
  rfl

theorem ofIndex?_congr {tx tx' : Transaction} (h : tx.bare = tx'.bare) (index : Nat) (scriptCode : Bytes)
    (value : UInt64) (type : UInt32) :
    ofIndex? suite tx index scriptCode value type = ofIndex? suite tx' index scriptCode value type := by
  rw [← ofIndex?_bare, h, ofIndex?_bare]

end Preimage

namespace Spend

variable {tx tx' t : Transaction} {key : suite.curve.Scalar} {i : Nat} {value : UInt64} {contract : Contract}

theorem unlockingScript_bare (key : suite.curve.Scalar) (tx : Transaction) (index : Nat) (value : UInt64)
    (contract : Contract) :
    unlockingScript key tx.bare index value contract = unlockingScript key tx index value contract := by
  simp only [unlockingScript, Preimage.ofIndex?_bare, Transaction.length_inputs_bare, elements,
    Transaction.outpoints_bare]
  rfl

theorem unlockingScript_congr (h : tx.bare = tx'.bare) :
    unlockingScript key tx i value contract = unlockingScript key tx' i value contract := by
  rw [← unlockingScript_bare, h, unlockingScript_bare]

/-! ## Signing twice -/

theorem signInput_eq_ok_iff :
    signInput key tx i value contract = .ok t ↔
      ∃ script, unlockingScript key tx i value contract = .ok script ∧ tx.setUnlockingScript i script = t := by
  rw [signInput, map_eq_ok_iff]

/-- The input that is signed second is signed as if the first one had not been. -/
theorem signInput_bind_eq_ok_iff {key' : suite.curve.Scalar} {j : Nat} {value' : UInt64} {contract' : Contract} :
    (signInput key tx i value contract >>= fun t' => signInput key' t' j value' contract') = .ok t ↔
      ∃ script script', unlockingScript key tx i value contract = .ok script ∧
        unlockingScript key' tx j value' contract' = .ok script' ∧
        (tx.setUnlockingScript i script).setUnlockingScript j script' = t := by
  rw [bind_eq_ok_iff]
  constructor
  · rintro ⟨t', hfirst, hsecond⟩
    obtain ⟨script, hscript, rfl⟩ := signInput_eq_ok_iff.1 hfirst
    obtain ⟨script', hscript', rfl⟩ := signInput_eq_ok_iff.1 hsecond
    rw [unlockingScript_congr (tx.bare_setUnlockingScript i script)] at hscript'
    exact ⟨script, script', hscript, hscript', rfl⟩
  · rintro ⟨script, script', hscript, hscript', rfl⟩
    refine ⟨_, signInput_eq_ok_iff.2 ⟨script, hscript, rfl⟩, signInput_eq_ok_iff.2 ⟨script', ?_, rfl⟩⟩
    rwa [unlockingScript_congr (tx.bare_setUnlockingScript i script)]

theorem signInput_again (h : signInput key tx i value contract = .ok t) :
    signInput key t i value contract = .ok t := by
  obtain ⟨script, hscript, rfl⟩ := signInput_eq_ok_iff.1 h
  refine signInput_eq_ok_iff.2 ⟨script, ?_, tx.setUnlockingScript_self i script script⟩
  rwa [unlockingScript_congr (tx.bare_setUnlockingScript i script)]

theorem signInput_comm {key' : suite.curve.Scalar} {j : Nat} {value' : UInt64} {contract' : Contract} (h : i ≠ j) :
    (signInput key tx i value contract >>= fun t' => signInput key' t' j value' contract') = .ok t ↔
      (signInput key' tx j value' contract' >>= fun t' => signInput key t' i value contract) = .ok t := by
  rw [signInput_bind_eq_ok_iff, signInput_bind_eq_ok_iff]
  constructor
  · rintro ⟨script, script', hscript, hscript', rfl⟩
    exact ⟨script', script, hscript', hscript, tx.setUnlockingScript_comm h.symm script' script⟩
  · rintro ⟨script', script, hscript', hscript, rfl⟩
    exact ⟨script, script', hscript, hscript', tx.setUnlockingScript_comm h script script'⟩

/-! ## Signing in place -/

/-- Signing in place fails without a change, or leaves what signing gives. -/
theorem run_signInPlace (key : suite.curve.Scalar) (tx : Transaction) (index : Nat) (value : UInt64)
    (contract : Contract) :
    (signInPlace key index value contract).run tx =
      match signInput key tx index value contract with
      | .error e => .error e tx
      | .ok tx' => .ok () tx' := by
  rw [signInput, unlockingScript, signInPlace, EStateM.run_bind, EStateM.run_get]
  dsimp only
  -- Each part fails in the state it found, which is the first one, as nothing before has written.
  cases Preimage.ofIndex? suite tx index contract.script value sighashAllForkId with
  | none => rfl
  | some preimage =>
      dsimp only
      cases Signature.sign key (preimage.sighash suite) with
      | error e => rfl
      | ok signature =>
          simp only [Except.mapError, MonadExcept.ofExcept, pure_bind, EStateM.run_bind, EStateM.run_get]
          simp only [bind, Except.bind]
          cases Script.pushAll (elements tx signature preimage contract) with
          | error e => rfl
          | ok script => rfl

end Spend

/-! ## What verifying reads -/

theorem SpendContext.checkSignature_congr (suite : Suite) {tx tx' : Transaction} (h : tx.bare = tx'.bare)
    (index : Nat) (value : UInt64) (scriptCode sig pubkey : Bytes) :
    checkSignature suite ⟨tx, index, value, scriptCode⟩ sig pubkey =
      checkSignature suite ⟨tx', index, value, scriptCode⟩ sig pubkey := by
  simp only [checkSignature, Preimage.ofIndex?_congr h]

section

variable {ctx ctx' : SpendContext}
  (h : ∀ sig pubkey, ctx.checkSignature suite sig pubkey = ctx'.checkSignature suite sig pubkey)

include h

theorem Stack.checkSig_congr (op : Opcode) (s : Stack) :
    s.checkSig suite (some ctx) op = s.checkSig suite (some ctx') op := by
  match s with
  | [] | [_] => rfl
  | pubkey :: sig :: s => simp only [Stack.checkSig, h]

/-- An opcode reads of the input that is spent no more than which signatures it has. -/
theorem Opcode.run_congr (op : Opcode) (s : Stack) : op.run suite (some ctx) s = op.run suite (some ctx') s := by
  cases op with
  | checkSig | checkSigVerify => simp only [Opcode.run, Stack.checkSig_congr h]
  | _ => rfl

theorem Script.execute_congr (script : Bytes) (s : Stack) :
    execute suite (some ctx) script s = execute suite (some ctx') script s := by
  have happly : State.apply suite (some ctx) = State.apply suite (some ctx') := by
    funext st i
    simp only [State.apply, step, Opcode.run_congr h]
  rw [execute, execute, happly]

end

namespace Contract

theorem verifySpend_replaceOthers (tx : Transaction) (index : Nat) (value : UInt64) (contract : Contract)
    (scripts : Nat → Bytes) (witnesses : Nat → Witness) :
    verifySpend suite (tx.replaceOthers index scripts witnesses) index value contract =
      verifySpend suite tx index value contract := by
  have hcheck (script sig pubkey : Bytes) :=
    SpendContext.checkSignature_congr suite (tx.bare_replaceOthers index scripts witnesses) index value script sig
      pubkey
  simp only [verifySpend, runRedeemScript, Transaction.getElem?_replaceOthers, Script.execute_congr (hcheck _)]

end Contract

namespace Spend

/-! ## Independent inputs -/

/-- Signing an input in place fails without a change, or changes the unlocking script of the input and no more;
doing it again changes nothing, and two inputs are signed in either order. An input is verified with the same
outcome whatever unlocking scripts and witnesses the others have. -/
theorem inputs_independent (key : suite.curve.Scalar) (tx : Transaction) (i : Nat) (value : UInt64)
    (contract : Contract) :
    ((signInPlace key i value contract).run tx =
      match signInput key tx i value contract with
      | .error e => .error e tx
      | .ok tx' => .ok () tx') ∧
    (∀ tx', signInput key tx i value contract = .ok tx' →
      (∃ input script, tx.inputs[i]? = some input ∧
        tx' = { tx with inputs := tx.inputs.set i { input with unlockingScript := script } }) ∧
      signInput key tx' i value contract = .ok tx') ∧
    (∀ (key' : suite.curve.Scalar) (j : Nat) (value' : UInt64) (contract' : Contract), i ≠ j → ∀ tx',
      (signInput key tx i value contract >>= fun t => signInput key' t j value' contract') = .ok tx' ↔
        (signInput key' tx j value' contract' >>= fun t => signInput key t i value contract) = .ok tx') ∧
    (∀ scripts witnesses, Contract.verifySpend suite (tx.replaceOthers i scripts witnesses) i value contract =
      Contract.verifySpend suite tx i value contract) := by
  refine ⟨run_signInPlace key tx i value contract, fun tx' h => ?_, fun _ _ _ _ h _ => signInput_comm h,
    Contract.verifySpend_replaceOthers tx i value contract⟩
  obtain ⟨input, -, script, hinput, -, -, rfl⟩ := exists_pushAll_of_signInput h
  exact ⟨⟨input, script, hinput, Transaction.setUnlockingScript_eq_set hinput script⟩, signInput_again h⟩

/-- A transaction with two inputs, the second of which has a witness. -/
def pairSpend : Transaction where
  inputs := [{ outpoint := ⟨FixedBytes.zero 32, 0⟩ },
    { outpoint := ⟨FixedBytes.zero 32, 1⟩, unlockingScript := [0x51], witness := [[1]] }]
  outputs := []

theorem inputs_independent_pair :
    ∃ (key key' : Suite.standard.curve.Scalar) (tx tx' : Transaction),
      signInput key pairSpend 0 1000 ⟨[0x51]⟩ = .ok tx ∧ signInput key' tx 1 2000 ⟨[0x52]⟩ = .ok tx' ∧
      signInput key tx 0 1000 ⟨[0x51]⟩ = .ok tx ∧ (0 : Nat) ≠ 1 ∧
      (signInput key' pairSpend 1 2000 ⟨[0x52]⟩ >>= fun t => signInput key t 0 1000 ⟨[0x51]⟩) = .ok tx' ∧
      tx.inputs[1]? = pairSpend.inputs[1]? := by
  have hkeys : ((Suite.standard.curve.scalar? 1).bind fun key => (Suite.standard.curve.scalar? 2).bind fun key' =>
      ((signInput key pairSpend 0 1000 ⟨[0x51]⟩).toOption.bind fun tx =>
        (signInput key' tx 1 2000 ⟨[0x52]⟩).toOption)).isSome = true := by decide +kernel
  simp only [Option.isSome_iff_exists, Option.bind_eq_some_iff, toOption_eq_some_iff] at hkeys
  obtain ⟨tx', key, -, key', -, tx, hfirst, hsecond⟩ := hkeys
  obtain ⟨-, hframe, hcomm, -⟩ := inputs_independent key pairSpend 0 1000 ⟨[0x51]⟩
  obtain ⟨⟨input, script, -, htx⟩, hagain⟩ := hframe tx hfirst
  have hboth := (hcomm key' 1 2000 ⟨[0x52]⟩ (by decide) tx').1 (bind_eq_ok_iff.2 ⟨tx, hfirst, hsecond⟩)
  exact ⟨key, key', tx, tx', hfirst, hsecond, hagain, by decide, hboth, by rw [htx]; rfl⟩

end Spend

end ShareCovenant
