import ShareCovenant.Contract

/-!
# Verifying spends

A coin of a contract is unlocked by pushes, the last of which is a script with the contract's hash. That
script runs on the other pushes and must leave one true element.
-/

namespace ShareCovenant.Contract

/-- Whether a final stack is one true element. -/
def accepts : Stack → Bool
  | [top] => Number.isTrue top
  | _ => false

/-- Runs a script on the pushes before it. -/
def runRedeemScript (suite : Suite) (tx : Transaction) (index : Nat) (value : UInt64) (script : Bytes)
    (s : Stack) : Except ScriptError Unit := do
  let ctx : SpendContext := { tx := tx, index := index, value := value, scriptCode := script }
  let final ← Script.execute suite (some ctx) script s
  if accepts final then return () else throw .evalFalse

/-- Verifies the input at an index, which spends an amount held by a contract. -/
def verifySpend (suite : Suite) (tx : Transaction) (index : Nat) (value : UInt64) (contract : Contract) :
    Except ScriptError Unit :=
  match tx.inputs[index]? with
  | none => .error (.inputIndex index)
  | some input => do
      let pushes ← Script.pushes input.unlockingScript
      match pushes.reverse with
      | [] => throw .scriptHash
      | script :: s =>
          if suite.hash160 script = contract.hash suite then
            runRedeemScript suite tx index value script s
          else throw .scriptHash

end ShareCovenant.Contract
