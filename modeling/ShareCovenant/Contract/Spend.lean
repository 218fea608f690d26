import ShareCovenant.Contract.Coin
import ShareCovenant.Contract.Payout

/-!
# Spends

A spend of a coin has one input. Its unlocking script pushes what the covenant program reads: the
outpoints and outputs, the signature with its type, the nine fragments of the preimage, and the script of
the contract. Signing an input changes nothing but its unlocking script.
-/

namespace ShareCovenant.Spend

variable {suite : Suite}

/-- The transaction that spends an outpoint, with an empty unlocking script. -/
def unsigned (outpoint : OutPoint) (outputs : List Output) : Transaction where
  version := 2
  inputs := [{ outpoint := outpoint }]
  outputs := outputs
  lockTime := 0

/-- The elements that the unlocking script pushes. -/
def elements (tx : Transaction) (signature : FixedBytes 64) (preimage : Preimage) (contract : Contract) :
    List Bytes :=
  [OutPoint.listBytes tx.outpoints, Output.listBytes tx.outputs,
   signature ++ [sighashAllForkId.toUInt8]] ++ preimage.fragments ++ [contract.script]

/-- The unlocking script of an input that spends an amount held by a contract. -/
def unlockingScript (key : suite.curve.Scalar) (tx : Transaction) (index : Nat) (value : UInt64)
    (contract : Contract) : Except ContractError Bytes :=
  match Preimage.ofIndex? suite tx index contract.script value sighashAllForkId with
  | none => .error (.inputIndex index tx.inputs.length)
  | some preimage => do
      let signature ← (Signature.sign key (preimage.sighash suite)).mapError .key
      (Script.pushAll (elements tx signature preimage contract)).mapError .build

/-- Signs an input that spends an amount held by a contract. -/
def signInput (key : suite.curve.Scalar) (tx : Transaction) (index : Nat) (value : UInt64)
    (contract : Contract) : Except ContractError Transaction :=
  (unlockingScript key tx index value contract).map (tx.setUnlockingScript index)

/-- Signs an input of the transaction that is the state. Each part reads the transaction as it is by then, and the
last one writes; nothing takes a change back. -/
def signInPlace (key : suite.curve.Scalar) (index : Nat) (value : UInt64) (contract : Contract) :
    EStateM ContractError Transaction Unit := do
  let some preimage := Preimage.ofIndex? suite (← get) index contract.script value sighashAllForkId
    | throw (.inputIndex index (← get).inputs.length)
  let signature ← MonadExcept.ofExcept ((Signature.sign key (preimage.sighash suite)).mapError .key)
  let pushes := elements (← get) signature preimage contract
  let script ← MonadExcept.ofExcept ((Script.pushAll pushes).mapError .build)
  modify fun tx => tx.setUnlockingScript index script

/-- Spends a coin of a contract with any outputs, whether the contract admits them or not. -/
def withOutputs (key : suite.curve.Scalar) (coin : Coin) (contract : Contract) (outputs : List Output) :
    Except ContractError Transaction :=
  signInput key (unsigned coin.outpoint outputs) 0 coin.value contract

/-- Spends a coin with the outputs that the terms prescribe. -/
def build (key : suite.curve.Scalar) (coin : Coin) (terms : Terms) : Except ContractError Transaction := do
  let contract ← Contract.compile (Key.publicKey key) terms
  let outputs ← Payout.outputs suite coin.value terms contract
  withOutputs key coin contract outputs

/-- Refuses a transaction with more bytes than the fee. -/
def checkFee (tx : Transaction) (fee : UInt64) : Except ContractError Unit :=
  if fee.toNat < tx.size then .error (.feeTooLow fee tx.size) else .ok ()

/-- Spends a coin with the outputs that the terms prescribe, and a fee that pays for the size. -/
def create (key : suite.curve.Scalar) (coin : Coin) (terms : Terms) :
    Except ContractError Transaction := do
  let tx ← build key coin terms
  checkFee tx terms.fee
  return tx

end ShareCovenant.Spend
